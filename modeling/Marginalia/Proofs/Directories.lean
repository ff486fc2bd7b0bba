import Marginalia.Proofs.Disk

/-!
# Directories on the way to a place

A place is reached by its path if the places above it are directories and its
path fits. Making a directory, with the missing ones above it, adds directories
on the way to its place and changes nothing else, whether it succeeds or not. On
a disk that is a tree it succeeds unless a file is in the way or the path does
not fit, and a file in the way keeps it from adding anything.
-/

namespace Marginalia
namespace Disk

variable {d d' d'' : Disk} {key front k : Key} {s t : Path.Segment}

theorem toList_pathOf (key : Key) : (pathOf key).toList = Path.ofSegments key :=
  String.toList_ofList

theorem placeOf_pathOf (d : Disk) (h : Path.IsPlain key) : d.placeOf (pathOf key) = key := by
  rw [placeOf, toList_pathOf, Path.segments_ofSegments _ h]

theorem isEmpty_pathOf (key : Key) : (pathOf key).isEmpty = false := by
  rw [← Bool.not_eq_true, String.isEmpty_iff]
  intro h
  have hlist := congrArg String.toList h
  rw [toList_pathOf] at hlist
  cases hlist

theorem absolute_pathOf (d : Disk) (key : Key) : d.absolute (pathOf key) = pathOf key := by
  have habs : Path.isAbsolute (pathOf key).toList = true := by
    rw [toList_pathOf]
    rfl
  rw [absolute, habs, Bool.or_true, if_pos rfl]

/-- A path that can be the path of a file: it has no null character, and it is short enough as a
whole and between its slashes. -/
structure Fits (path : String) : Prop where
  isLegal : isIllegal path = false
  isShort : path.utf8ByteSize < pathLimit
  names : ∀ s ∈ Path.pieces path.toList, isTooLong s = false

instance (path : String) : Decidable (Fits path) :=
  decidable_of_iff (isIllegal path = false ∧ path.utf8ByteSize < pathLimit ∧
      ∀ s ∈ Path.pieces path.toList, isTooLong s = false)
    ⟨fun ⟨hlegal, hshort, hnames⟩ => ⟨hlegal, hshort, hnames⟩,
      fun h => ⟨h.isLegal, h.isShort, h.names⟩⟩

theorem isTooLong_eq_false_of_append (h : isTooLong (s ++ t) = false) : isTooLong s = false := by
  simp only [isTooLong, decide_eq_false_iff_not, String.ofList_append,
    String.utf8ByteSize_append] at h ⊢
  omega

theorem isIllegal_and_size_of_shorter {p q : String} (h : p.toList <+: q.toList) :
    (isIllegal q = false → isIllegal p = false) ∧ p.utf8ByteSize ≤ q.utf8ByteSize := by
  obtain ⟨rest, hrest⟩ := h
  have hq : q = p ++ String.ofList rest := by
    rw [← String.toList_inj, ← hrest]
    simp
  constructor
  · intro hlegal
    simp only [isIllegal, List.contains_eq_mem, decide_eq_false_iff_not] at hlegal ⊢
    exact fun hmem => hlegal (by rw [← hrest]; exact List.mem_append_left _ hmem)
  · rw [hq, String.utf8ByteSize_append]
    omega

theorem ofSegments_prefix_concat (front : Key) (s : Path.Segment) :
    Path.ofSegments front <+: Path.ofSegments (front ++ [s]) := by
  rw [Path.ofSegments_concat]
  split
  · rename_i h
    rw [h]
    exact ⟨s, rfl⟩
  · exact List.prefix_append _ _

theorem ofSegments_prefix_append (front : Key) (s t : Path.Segment) :
    Path.ofSegments (front ++ [s]) <+: Path.ofSegments (front ++ [s ++ t]) := by
  rw [Path.ofSegments_concat, Path.ofSegments_concat]
  exact ⟨t, by simp⟩

namespace Fits

theorem isTooLong_eq_false (h : Fits (pathOf key)) (hplain : Path.IsPlain key)
    (hs : s ∈ key) : isTooLong s = false := by
  refine h.names s ?_
  rw [toList_pathOf, Path.pieces_ofSegments hplain (List.ne_nil_of_mem hs)]
  exact List.mem_cons_of_mem _ hs

theorem of_shorter {key' : Key} (h : Fits (pathOf key)) (hplain : Path.IsPlain key')
    (hshorter : Path.ofSegments key' <+: Path.ofSegments key)
    (hnames : ∀ s ∈ key', isTooLong s = false) : Fits (pathOf key') := by
  have hparts := isIllegal_and_size_of_shorter (p := pathOf key') (q := pathOf key)
    (by rwa [toList_pathOf, toList_pathOf])
  refine ⟨hparts.1 h.isLegal, lt_of_le_of_lt hparts.2 h.isShort, fun s hs => ?_⟩
  rw [toList_pathOf] at hs
  by_cases hne : key' = []
  · subst hne
    have hempty : s = [] := by
      have hroot : Path.pieces (Path.ofSegments []) = [[], []] := by decide
      simpa [hroot] using hs
    rw [hempty]
    rfl
  · rw [Path.pieces_ofSegments hplain hne] at hs
    rcases List.mem_cons.1 hs with rfl | hs
    · rfl
    · exact hnames s hs

theorem above (h : Fits (pathOf (front ++ [s]))) (hplain : Path.IsPlain (front ++ [s])) :
    Fits (pathOf front) :=
  h.of_shorter hplain.of_append (ofSegments_prefix_concat front s) fun _ ht =>
    h.isTooLong_eq_false hplain (List.mem_append_left _ ht)

theorem of_append (h : Fits (pathOf (front ++ [s ++ t])))
    (hplain : Path.IsPlain (front ++ [s ++ t])) (hplain' : Path.IsPlain (front ++ [s])) :
    Fits (pathOf (front ++ [s])) := by
  refine h.of_shorter hplain' (ofSegments_prefix_append front s t) fun u hu => ?_
  rcases List.mem_append.1 hu with hu | hu
  · exact h.isTooLong_eq_false hplain (List.mem_append_left _ hu)
  · rw [List.mem_singleton.1 hu]
    have hlast : s ++ t ∈ front ++ [s ++ t] := by simp
    exact isTooLong_eq_false_of_append (h.isTooLong_eq_false hplain hlast)

theorem route_eq (h : Fits (pathOf key)) (d : Disk) :
    d.route (pathOf key) = .ok (Path.pieces (Path.ofSegments key)) := by
  rw [route, isEmpty_pathOf, h.isLegal, absolute_pathOf, if_neg (by simp),
    if_neg (not_le.2 h.isShort), toList_pathOf]

end Fits

@[simp] theorem follow_nil_cons (d : Disk) (r : Route) :
    d.follow [] ([] :: r) = d.follow [] r := rfl

theorem step_of_isName {place : Key} (hplace : d.entry? place = some .directory)
    (hname : Path.IsName s) (hshort : isTooLong s = false) :
    d.step place s = .ok (place ++ [s]) := by
  refine step_eq_ok_iff.2 ⟨hplace, hshort, ?_⟩
  rw [Path.step_of_isName hname, List.reverse_cons, List.reverse_reverse]

theorem follow_of_dirs {place : Key} {ss : List Path.Segment} (hplain : Path.IsPlain ss)
    (hshort : ∀ s ∈ ss, isTooLong s = false)
    (hdirs : ∀ p, p <+: ss → p ≠ ss → d.entry? (place ++ p) = some .directory) :
    d.follow place ss = .ok (place ++ ss) := by
  induction ss generalizing place with
  | nil => simp [follow]
  | cons s ss ih =>
    have hplace : d.entry? place = some .directory := by
      simpa using hdirs [] List.nil_prefix (by simp)
    have hstep := step_of_isName hplace (hplain s List.mem_cons_self).1
      (hshort s List.mem_cons_self)
    rw [follow, hstep]
    have hrest : d.follow (place ++ [s]) ss = .ok (place ++ [s] ++ ss) :=
      ih (fun t ht => hplain t (List.mem_cons_of_mem _ ht))
      (fun t ht => hshort t (List.mem_cons_of_mem _ ht)) fun p hp hne => by
        have := hdirs (s :: p) (List.cons_prefix_cons.2 ⟨rfl, hp⟩) (by simpa using hne)
        simpa using this
    simpa using hrest

/-- The target of an operation on a place is a name in the directory above it. -/
theorem target_concat (d : Disk) (hplain : Path.IsPlain (front ++ [s])) :
    d.target ([] :: (front ++ [s])) =
      match d.follow [] front with
      | .error cause => .error cause
      | .ok directory =>
        match d.step directory s with
        | .error cause => .error cause
        | .ok key => .ok (.named key false) := by
  have hname := (hplain s (by simp)).1
  have hs : s ≠ [] := hname.ne_nil
  have hbackwards : Route.backwards ([] :: (front ++ [s])) = s :: (front.reverse ++ [[]]) := by
    simp [Route.backwards, hs]
  have hend : Route.endsInSlash ([] :: (front ++ [s])) = false := by
    rw [Route.endsInSlash, ← List.cons_append, List.getLast?_concat]
    simpa using hs
  have hnot : (Path.isIdle s || decide (s = Path.up)) = false := by
    simp [hname.1, hname.2]
  have htarget := target.eq_1 d ([] :: (front ++ [s]))
  simp only [hbackwards, List.reverse_append, List.reverse_reverse, List.reverse_singleton,
    List.singleton_append, follow_nil_cons, hnot, hend, Bool.false_eq_true, if_false] at htarget
  exact htarget

theorem targetOf_pathOf (hplain : Path.IsPlain (front ++ [s]))
    (hfits : Fits (pathOf (front ++ [s])))
    (hdirs : ∀ k, k <+: front → d.entry? k = some .directory) :
    d.targetOf (pathOf (front ++ [s])) = .ok (.named (front ++ [s]) false) := by
  have hfollow : d.follow [] front = .ok front :=
    follow_of_dirs hplain.of_append
      (fun t ht => hfits.isTooLong_eq_false hplain (List.mem_append_left _ ht))
      fun p hp _ => hdirs p hp
  have hstep : d.step front s = .ok (front ++ [s]) :=
    step_of_isName (hdirs front List.prefix_rfl) (hplain s (by simp)).1
      (hfits.isTooLong_eq_false hplain (by simp))
  rw [targetOf, hfits.route_eq, Path.pieces_ofSegments hplain (by simp)]
  simp only [target_concat d hplain, hfollow, hstep]

theorem dirs_of_follow {place : Key} {ss : List Path.Segment} (hplain : Path.IsPlain ss)
    (h : d.follow place ss = .ok key) :
    key = place ++ ss ∧ ∀ p, p <+: ss → p ≠ ss → d.entry? (place ++ p) = some .directory := by
  constructor
  · rw [eq_of_follow h, Path.foldl_step_of_isName fun s hs => (hplain s hs).1]
    simp
  · induction ss generalizing place with
    | nil => exact fun p hp hne => absurd (List.prefix_nil.1 hp) hne
    | cons s ss ih =>
      rw [follow] at h
      split at h
      · rename_i next hstep
        obtain ⟨hplace, -, hnext⟩ := step_eq_ok_iff.1 hstep
        rw [Path.step_of_isName (hplain s List.mem_cons_self).1, List.reverse_cons,
          List.reverse_reverse] at hnext
        subst hnext
        intro p hp hne
        cases p with
        | nil => simpa using hplace
        | cons t p =>
          obtain ⟨rfl, hp'⟩ := List.cons_prefix_cons.1 hp
          have := ih (fun u hu => hplain u (List.mem_cons_of_mem _ hu)) h p hp' (by simpa using hne)
          simpa using this
      · cases h

/-- Where no file is in the way, names are followed or something is missing. -/
theorem follow_of_noFile {place : Key} {ss : List Path.Segment} (hplain : Path.IsPlain ss)
    (hshort : ∀ s ∈ ss, isTooLong s = false)
    (hfree : ∀ p, p <+: ss → p ≠ ss → ∀ c, d.entry? (place ++ p) ≠ some (.file c)) :
    d.follow place ss = .ok (place ++ ss) ∨ d.follow place ss = .error .notFound := by
  induction ss generalizing place with
  | nil => exact .inl (by simp [follow])
  | cons s ss ih =>
    have hplace := hfree [] List.nil_prefix (by simp)
    rw [List.append_nil] at hplace
    rcases he : d.entry? place with _ | _ | _
    · right
      simp [follow, step, he]
    · exact absurd he (hplace _)
    · have hstep := step_of_isName he (hplain s List.mem_cons_self).1
        (hshort s List.mem_cons_self)
      have hrest : d.follow (place ++ [s]) ss = .ok (place ++ [s] ++ ss) ∨
          d.follow (place ++ [s]) ss = .error .notFound :=
        ih (fun t ht => hplain t (List.mem_cons_of_mem _ ht))
          (fun t ht => hshort t (List.mem_cons_of_mem _ ht)) fun p hp hne => by
          have := hfree (s :: p) (List.cons_prefix_cons.2 ⟨rfl, hp⟩) (by simpa using hne)
          simpa using this
      simpa [follow, hstep] using hrest

/-- The first missing place on the way to a place: everything above it is a directory. -/
structure IsGap (d : Disk) (p : Key) : Prop where
  missing : d.entry? p = none
  dirs : ∀ q, q <+: p → q ≠ p → d.entry? q = some .directory

/-- Where names are not found, the walk has come to a gap. -/
theorem exists_gap_of_follow {place : Key} {ss : List Path.Segment} (hplain : Path.IsPlain ss)
    (hdirs : ∀ q, q <+: place → q ≠ place → d.entry? q = some .directory)
    (h : d.follow place ss = .error .notFound) : ∃ p, p <+: place ++ ss ∧ d.IsGap p := by
  induction ss generalizing place with
  | nil => cases h
  | cons s ss ih =>
    rcases he : d.entry? place with _ | _ | _
    · exact ⟨place, List.prefix_append _ _, he, hdirs⟩
    · simp [follow, step, he] at h
    · cases hlong : isTooLong s with
      | true =>
        have hname := (hplain s List.mem_cons_self).1
        simp [follow, step, he, hname.1, hname.2, hlong] at h
      | false =>
        rw [follow, step_of_isName he (hplain s List.mem_cons_self).1 hlong] at h
        obtain ⟨p, hp, hgap⟩ := ih (fun t ht => hplain t (List.mem_cons_of_mem _ ht)) (by
          intro q hq hne
          have hq := (List.prefix_concat_iff.1 hq).resolve_left hne
          by_cases heq : q = place
          · rwa [heq]
          · exact hdirs q hq heq) h
        exact ⟨p, by simpa using hp, hgap⟩

/-- What is somewhere below a directory, or nowhere: every entry is in a directory. -/
def IsTree (d : Disk) : Prop :=
  ∀ key s, (d.entry? (key ++ [s])).isSome → d.entry? key = some .directory

theorem isTree_iff :
    d.IsTree ↔ ∀ x ∈ d.entries, x.1 ≠ [] → d.entry? x.1.dropLast = some .directory := by
  have hsome : ∀ front s, (d.entry? (front ++ [s])).isSome ↔ ∃ x ∈ d.entries, x.1 = front ++ [s] := by
    intro front s
    rw [entry?_of_ne_nil d (by simp), Option.isSome_iff_ne_none, ne_eq, List.lookup_eq_none_iff]
    push Not
    refine exists_congr fun x => and_congr_right fun _ => ?_
    rw [ne_eq, bne_iff_ne, not_not, eq_comm]
  constructor
  · intro h x hx hne
    obtain ⟨front, s, hkey⟩ := (List.eq_nil_or_concat' x.1).resolve_left hne
    rw [hkey, List.dropLast_concat]
    exact h front s ((hsome front s).2 ⟨x, hx, hkey⟩)
  · intro h front s hentry
    obtain ⟨x, hx, hkey⟩ := (hsome front s).1 hentry
    simpa [hkey] using h x hx (by simp [hkey])

instance (d : Disk) : Decidable d.IsTree := decidable_of_iff _ isTree_iff.symm

theorem IsTree.dirs_above (h : d.IsTree) (hkey : (d.entry? key).isSome) (hk : k <+: key)
    (hne : k ≠ key) : d.entry? k = some .directory := by
  induction key using List.reverseRecOn with
  | nil => exact absurd (List.prefix_nil.1 hk) hne
  | append_singleton key s ih =>
    have hdir := h key s hkey
    rcases List.prefix_concat_iff.1 hk with heq | hk
    · exact absurd heq hne
    · by_cases heq : k = key
      · rwa [heq]
      · exact ih (by simp [hdir]) hk heq

/-- One disk has the entries of another, and directories on the way to a place in addition. -/
structure GrowsAlong (key : Key) (d d' : Disk) : Prop where
  workingDir : d'.workingDir = d.workingDir
  entries : ∀ k, d'.entry? k = d.entry? k ∨
    k <+: key ∧ d.entry? k = none ∧ d'.entry? k = some .directory

namespace GrowsAlong

theorem refl (key : Key) (d : Disk) : GrowsAlong key d d := ⟨rfl, fun _ => .inl rfl⟩

theorem trans (h : GrowsAlong key d d') (h' : GrowsAlong key d' d'') : GrowsAlong key d d'' := by
  refine ⟨h'.workingDir.trans h.workingDir, fun k => ?_⟩
  rcases h'.entries k with heq | ⟨hk, hnone, hdir⟩ <;>
    rcases h.entries k with heq' | ⟨hk', hnone', hdir'⟩
  · exact .inl (heq.trans heq')
  · exact .inr ⟨hk', hnone', heq.trans hdir'⟩
  · exact .inr ⟨hk, heq' ▸ hnone, hdir⟩
  · exact .inr ⟨hk', hnone', hdir⟩

theorem mono {key' : Key} (h : GrowsAlong key d d') (hkey : key <+: key') :
    GrowsAlong key' d d' :=
  ⟨h.workingDir, fun k => (h.entries k).imp_right fun ⟨hk, hrest⟩ => ⟨hk.trans hkey, hrest⟩⟩

theorem entry?_of_isSome {e : Entry} (h : GrowsAlong key d d') (hk : d.entry? k = some e) :
    d'.entry? k = some e := by
  rcases h.entries k with heq | ⟨-, hnone, -⟩
  · rw [heq, hk]
  · rw [hk] at hnone
    cases hnone

theorem entry?_of_not_above (h : GrowsAlong key d d') (hk : ¬ k <+: key) :
    d'.entry? k = d.entry? k :=
  (h.entries k).resolve_right fun hgrown => hk hgrown.1

theorem ne_file {c : String} (h : GrowsAlong key d d') (hk : d.entry? k ≠ some (.file c)) :
    d'.entry? k ≠ some (.file c) := by
  rcases h.entries k with heq | ⟨-, -, hdir⟩
  · rwa [heq]
  · simp [hdir]

theorem put_directory (hkey : key ≠ []) (hnone : d.entry? key = none) :
    GrowsAlong key d (d.put key .directory) := by
  refine ⟨rfl, fun k => ?_⟩
  rw [entry?_put d hkey]
  split
  · rename_i hk
    subst hk
    exact .inr ⟨List.prefix_rfl, hnone, rfl⟩
  · exact .inl rfl

end GrowsAlong

theorem IsTree.put_directory (h : d.IsTree) (hfront : d.entry? front = some .directory) :
    (d.put (front ++ [s]) .directory).IsTree := by
  intro key t hkey
  rw [entry?_put d (by simp)] at hkey ⊢
  split
  · rfl
  · split at hkey
    · rename_i heq
      rwa [List.append_inj_left' heq rfl]
    · exact h key t hkey

/-- The steps to a place, as they are taken from the root. -/
def stepsTo (key : Key) : Route := [] :: key

theorem makeDir_eq_ok (hplain : Path.IsPlain (front ++ [s]))
    (h : d.makeDir (stepsTo (front ++ [s])) = .ok d') :
    (∀ k, k <+: front → d.entry? k = some .directory) ∧ d.entry? (front ++ [s]) = none ∧
      d' = d.put (front ++ [s]) .directory := by
  unfold makeDir at h
  rw [stepsTo, target_concat d hplain] at h
  cases hfollow : d.follow [] front with
  | error cause => simp [hfollow] at h
  | ok place =>
    obtain ⟨hplace, hdirs⟩ := dirs_of_follow hplain.of_append hfollow
    obtain rfl : front = place := hplace.symm
    cases hstep : d.step front s with
    | error cause => simp [hfollow, hstep] at h
    | ok key =>
      obtain ⟨hfront, -, hkey⟩ := step_eq_ok_iff.1 hstep
      rw [Path.step_of_isName (hplain s (by simp)).1, List.reverse_cons,
        List.reverse_reverse] at hkey
      subst hkey
      simp only [hfollow, hstep] at h
      split at h
      · cases h
      · rename_i hnone
        cases h
        refine ⟨fun k hk => ?_, by simpa using hnone, rfl⟩
        by_cases heq : k = front
        · rwa [heq]
        · exact hdirs k hk heq

theorem provideDir_eq_ok {isWhole : Bool} (hplain : Path.IsPlain (front ++ [s]))
    (h : d.provideDir isWhole (stepsTo (front ++ [s])) = .ok d') :
    (∀ k, k <+: front → d.entry? k = some .directory) ∧
      (d' = d ∧ d.entry? (front ++ [s]) = some .directory ∨
        d.entry? (front ++ [s]) = none ∧ d' = d.put (front ++ [s]) .directory) := by
  unfold provideDir at h
  split at h
  · split at h
    · rename_i key hfind
      cases h
      unfold find at hfind
      split at hfind
      · cases hfind
      · rename_i place hfollow
        rw [stepsTo, follow_nil_cons] at hfollow
        obtain ⟨hplace, hdirs⟩ := dirs_of_follow hplain hfollow
        obtain rfl : front ++ [s] = place := hplace.symm
        split at hfind
        · rename_i e he
          cases hfind
          refine ⟨fun k hk => hdirs k (hk.trans (List.prefix_append _ _)) ?_, .inl ⟨rfl, he⟩⟩
          rintro rfl
          simpa using hk.length_le
        · cases hfind
    · cases h
    · cases h
  · obtain ⟨hdirs, hnone, hput⟩ := makeDir_eq_ok hplain h
    exact ⟨hdirs, .inr ⟨hnone, hput⟩⟩

theorem provideDir_grows {isWhole : Bool} (hplain : Path.IsPlain (front ++ [s]))
    (h : d.provideDir isWhole (stepsTo (front ++ [s])) = .ok d') :
    GrowsAlong (front ++ [s]) d d' ∧ (∀ k, k <+: front ++ [s] → d'.entry? k = some .directory) ∧
      (d.IsTree → d'.IsTree) := by
  obtain ⟨hdirs, ⟨rfl, hdir⟩ | ⟨hnone, rfl⟩⟩ := provideDir_eq_ok hplain h
  · refine ⟨GrowsAlong.refl _ _, fun k hk => ?_, id⟩
    rcases List.prefix_concat_iff.1 hk with rfl | hk
    · exact hdir
    · exact hdirs k hk
  · have hgrows : GrowsAlong (front ++ [s]) d (d.put (front ++ [s]) .directory) :=
      GrowsAlong.put_directory (by simp) hnone
    refine ⟨hgrows, fun k hk => ?_, fun htree => htree.put_directory (hdirs front List.prefix_rfl)⟩
    rcases List.prefix_concat_iff.1 hk with rfl | hk
    · rw [entry?_put d (by simp), if_pos rfl]
    · exact hgrows.entry?_of_isSome (hdirs k hk)

theorem provideDirs_concat (isWhole : Bool) (front : Key) (s : Path.Segment) (d : Disk) :
    provideDirs isWhole (stepsTo (front ++ [s])).reverse d =
      match d.provideDir isWhole (stepsTo (front ++ [s])) with
      | .ok made => (.ok (), made)
      | .error .notFound =>
        match provideDirs false (stepsTo front).reverse d with
        | (.error cause, d') => (.error cause, d')
        | (.ok _, d') =>
          match d'.provideDir isWhole (stepsTo (front ++ [s])) with
          | .ok made => (.ok (), made)
          | .error cause => (.error cause, d')
      | .error cause => (.error cause, d) := by
  have hsteps : (stepsTo (front ++ [s])).reverse = s :: (stepsTo front).reverse := by
    simp [stepsTo]
  have hdirs := provideDirs.eq_2 isWhole d s (stepsTo front).reverse
  rw [← hsteps, List.reverse_reverse] at hdirs
  exact hdirs

/-- Whether all directories on the way can be made or not, only such directories are added. -/
theorem provideDirs_grows (hplain : Path.IsPlain key) (isWhole : Bool) (d : Disk) :
    GrowsAlong key d (provideDirs isWhole (stepsTo key).reverse d).2 ∧
      ((provideDirs isWhole (stepsTo key).reverse d).1 = .ok () → ∀ k, k <+: key →
        Disk.entry? (provideDirs isWhole (stepsTo key).reverse d).2 k = some .directory) ∧
      (d.IsTree → (provideDirs isWhole (stepsTo key).reverse d).2.IsTree) := by
  induction key using List.reverseRecOn generalizing isWhole d with
  | nil =>
    refine ⟨GrowsAlong.refl _ d, fun _ k hk => ?_, id⟩
    rw [List.prefix_nil.1 hk]
    rfl
  | append_singleton front s ih =>
    rw [provideDirs_concat]
    split
    · rename_i made hmade
      obtain ⟨hgrows, hdirs, htree⟩ := provideDir_grows hplain hmade
      exact ⟨hgrows, fun _ => hdirs, htree⟩
    · obtain ⟨hgrows, -, htree⟩ := ih hplain.of_append false d
      split
      · rename_i cause d' hfront
        rw [hfront] at hgrows htree
        exact ⟨hgrows.mono (List.prefix_append _ _), by simp, htree⟩
      · rename_i d' hfront
        rw [hfront] at hgrows htree
        split
        · rename_i made hmade
          obtain ⟨hgrows', hdirs, htree'⟩ := provideDir_grows hplain hmade
          exact ⟨(hgrows.mono (List.prefix_append _ _)).trans hgrows', fun _ => hdirs,
            fun h => htree' (htree h)⟩
        · exact ⟨hgrows.mono (List.prefix_append _ _), by simp, htree⟩
    · exact ⟨GrowsAlong.refl _ d, by simp, id⟩

theorem provideDir_of_dirs (isWhole : Bool) (hplain : Path.IsPlain (front ++ [s]))
    (hshort : ∀ t ∈ front ++ [s], isTooLong t = false)
    (hdirs : ∀ k, k <+: front → d.entry? k = some .directory)
    (hfree : ∀ c, d.entry? (front ++ [s]) ≠ some (.file c)) :
    ∃ made, d.provideDir isWhole (stepsTo (front ++ [s])) = .ok made := by
  have hfollow : d.follow [] front = .ok front :=
    follow_of_dirs hplain.of_append (fun t ht => hshort t (List.mem_append_left _ ht))
      fun p hp _ => hdirs p hp
  have hstep : d.step front s = .ok (front ++ [s]) :=
    step_of_isName (hdirs front List.prefix_rfl) (hplain s (by simp)).1 (hshort s (by simp))
  have hmake : d.makeDir (stepsTo (front ++ [s])) =
      if (d.entry? (front ++ [s])).isSome then .error .alreadyExists
      else .ok (d.put (front ++ [s]) .directory) := by
    simp only [makeDir, stepsTo, target_concat d hplain, hfollow, hstep]
  have hwhole : d.follow [] (stepsTo (front ++ [s])) = .ok (front ++ [s]) := by
    rw [stepsTo, follow_nil_cons, follow_append, hfollow]
    simp only [Except.bind, follow, hstep]
  rcases he : d.entry? (front ++ [s]) with _ | c | _
  · exact ⟨d.put (front ++ [s]) .directory, by simp [provideDir, hmake, he]⟩
  · exact absurd he (hfree c)
  · exact ⟨d, by simp [provideDir, hmake, he, find, hwhole]⟩

theorem target_of_missing (hplain : Path.IsPlain (front ++ [s]))
    (hshort : ∀ t ∈ front, isTooLong t = false)
    (hfree : ∀ k, k <+: front → ∀ c, d.entry? k ≠ some (.file c))
    (hmissing : ¬ ∀ k, k <+: front → d.entry? k = some .directory) :
    d.target (stepsTo (front ++ [s])) = .error .notFound := by
  rw [stepsTo, target_concat d hplain]
  have hcases : d.follow [] front = .ok front ∨ d.follow [] front = .error .notFound :=
    follow_of_noFile hplain.of_append hshort fun p hp _ => hfree p hp
  rcases hcases with hfollow | hfollow
  · have hdirs := (dirs_of_follow hplain.of_append hfollow).2
    have hfront : d.entry? front = none := by
      rcases he : d.entry? front with _ | c | _
      · rfl
      · exact absurd he (hfree front List.prefix_rfl c)
      · refine absurd (fun k hk => ?_) hmissing
        by_cases heq : k = front
        · rwa [heq]
        · exact hdirs k hk heq
    simp [hfollow, step, hfront]
  · rw [hfollow]

/-- All directories on the way can be made if no file is in the way. -/
theorem provideDirs_eq_ok (isWhole : Bool) (hplain : Path.IsPlain key)
    (hshort : ∀ t ∈ key, isTooLong t = false)
    (hfree : ∀ k, k <+: key → ∀ c, d.entry? k ≠ some (.file c)) :
    (provideDirs isWhole (stepsTo key).reverse d).1 = .ok () := by
  induction key using List.reverseRecOn generalizing isWhole with
  | nil => rfl
  | append_singleton front s ih =>
    have hshort' : ∀ t ∈ front, isTooLong t = false := fun t ht =>
      hshort t (List.mem_append_left _ ht)
    have hfree' : ∀ k, k <+: front → ∀ c, d.entry? k ≠ some (.file c) := fun k hk =>
      hfree k (hk.trans (List.prefix_append _ _))
    rw [provideDirs_concat]
    by_cases hdirs : ∀ k, k <+: front → d.entry? k = some .directory
    · obtain ⟨made, hmade⟩ :=
        provideDir_of_dirs isWhole hplain hshort hdirs (hfree _ List.prefix_rfl)
      rw [hmade]
    · have hprovide : d.provideDir isWhole (stepsTo (front ++ [s])) = .error .notFound := by
        simp only [provideDir, makeDir, target_of_missing hplain hshort' hfree' hdirs]
      rw [hprovide]
      have hfront := ih false hplain.of_append hshort' hfree'
      obtain ⟨hgrows, hdirs', -⟩ := provideDirs_grows hplain.of_append false d
      obtain ⟨made, hmade⟩ := provideDir_of_dirs isWhole hplain hshort (hdirs' hfront)
        fun c => hgrows.ne_file (hfree _ List.prefix_rfl c)
      rcases hpair : provideDirs false (stepsTo front).reverse d with ⟨_ | _, d'⟩
      · rw [hpair] at hfront
        cases hfront
      · rw [hpair] at hmade
        simp only [hmade]

theorem target_stepsTo (d : Disk) (hplain : Path.IsPlain (front ++ [s])) :
    d.target (stepsTo (front ++ [s])) = (d.follow [] (front ++ [s])).map (.named · false) := by
  rw [stepsTo, target_concat d hplain, follow_append]
  cases d.follow [] front with
  | error cause => rfl
  | ok place =>
    simp only [Except.bind, follow]
    cases d.step place s <;> rfl

theorem exists_gap_of_provideDir {isWhole : Bool} (hplain : Path.IsPlain (front ++ [s]))
    (h : d.provideDir isWhole (stepsTo (front ++ [s])) = .error .notFound) :
    ∃ p, p <+: front ++ [s] ∧ d.IsGap p := by
  have hwhole : d.follow [] (stepsTo (front ++ [s])) = d.follow [] (front ++ [s]) := rfl
  simp only [provideDir, makeDir, find, target_stepsTo d hplain, hwhole] at h
  cases hfollow : d.follow [] (front ++ [s]) with
  | error cause =>
    have hcause : cause = .notFound := by
      cases cause <;> simp_all [Except.map]
    rw [hcause] at hfollow
    exact @exists_gap_of_follow d [] _ hplain
      (fun q hq hne => absurd (List.prefix_nil.1 hq) hne) hfollow
  | ok place =>
    rcases he : d.entry? place with _ | _ | _ <;> cases isWhole <;>
      simp [hfollow, Except.map, he] at h

theorem provideDirs_of_noGap (isWhole : Bool) (hplain : Path.IsPlain key)
    (hgap : ∀ p, p <+: key → ¬ d.IsGap p) :
    (provideDirs isWhole (stepsTo key).reverse d).2 = d := by
  rcases List.eq_nil_or_concat' key with rfl | ⟨front, s, rfl⟩
  · rfl
  · rw [provideDirs_concat]
    split
    · rename_i made hmade
      obtain ⟨hdirs, ⟨rfl, -⟩ | ⟨hnone, -⟩⟩ := provideDir_eq_ok hplain hmade
      · rfl
      · refine absurd ⟨hnone, fun q hq hne => hdirs q ?_⟩ (hgap _ List.prefix_rfl)
        exact (List.prefix_concat_iff.1 hq).resolve_left hne
    · rename_i hnot
      obtain ⟨p, hp, hmissing⟩ := exists_gap_of_provideDir hplain hnot
      exact absurd hmissing (hgap p hp)
    · rfl

theorem makeDirs_pathOf (d : Disk) (hplain : Path.IsPlain key) :
    (∃ e, d.makeDirs (pathOf key) = (.error e, d) ∧ ¬ Fits (pathOf key)) ∨
      ∃ f : Cause → Fault, d.makeDirs (pathOf key) =
        match provideDirs true (stepsTo key).reverse d with
        | (.ok _, d') => (.ok (), d')
        | (.error cause, d') => (.error (f cause), d') := by
  unfold makeDirs
  split
  · rename_i hillegal
    refine .inl ⟨_, rfl, fun h => ?_⟩
    rw [h.isLegal] at hillegal
    cases hillegal
  · split
    · rename_i cause hroute
      refine .inl ⟨_, rfl, fun h => ?_⟩
      rw [h.route_eq] at hroute
      cases hroute
    · rename_i r hroute
      right
      rw [eq_pieces_of_route hroute, absolute_pathOf, toList_pathOf]
      by_cases hne : key = []
      · subst hne
        exact ⟨fun cause => .failed cause (.makeDirs (pathOf [])), rfl⟩
      · rw [Path.pieces_ofSegments hplain hne]
        exact ⟨fun cause => .failed cause (.makeDirs (pathOf key)), rfl⟩

theorem makeDirs_grows (hplain : Path.IsPlain key) (d : Disk) :
    GrowsAlong key d (d.makeDirs (pathOf key)).2 ∧
      (d.IsTree → (d.makeDirs (pathOf key)).2.IsTree) := by
  obtain ⟨hgrows, -, htree⟩ := provideDirs_grows hplain true d
  rcases makeDirs_pathOf d hplain with ⟨e, h, -⟩ | ⟨f, h⟩
  · rw [h]
    exact ⟨GrowsAlong.refl _ d, id⟩
  · rw [h]
    rcases hpair : provideDirs true (stepsTo key).reverse d with ⟨_ | _, d'⟩ <;>
      rw [hpair] at hgrows htree
    · exact ⟨hgrows, htree⟩
    · exact ⟨hgrows, htree⟩

theorem makeDirs_eq_ok {u : Unit} (hplain : Path.IsPlain key)
    (h : d.makeDirs (pathOf key) = (.ok u, d')) (k : Key) (hk : k <+: key) :
    d'.entry? k = some .directory := by
  obtain ⟨-, hdirs, -⟩ := provideDirs_grows hplain true d
  rcases makeDirs_pathOf d hplain with ⟨e, hfail, -⟩ | ⟨f, hmake⟩
  · rw [hfail] at h
    cases h
  · rw [hmake] at h
    rcases hpair : provideDirs true (stepsTo key).reverse d with ⟨_ | _, d''⟩ <;>
      rw [hpair] at h hdirs <;> cases h
    exact hdirs rfl k hk

theorem makeDirs_of_noFile (hplain : Path.IsPlain key) (hfits : Fits (pathOf key))
    (hfree : ∀ k, k <+: key → ∀ c, d.entry? k ≠ some (.file c)) :
    ∃ d', d.makeDirs (pathOf key) = (.ok (), d') ∧ GrowsAlong key d d' ∧
      ∀ k, k <+: key → d'.entry? k = some .directory := by
  have hok := provideDirs_eq_ok true hplain (fun t ht => hfits.isTooLong_eq_false hplain ht) hfree
  obtain ⟨hgrows, hdirs, -⟩ := provideDirs_grows hplain true d
  rcases makeDirs_pathOf d hplain with ⟨e, -, hnot⟩ | ⟨f, h⟩
  · exact absurd hfits hnot
  · rcases hpair : provideDirs true (stepsTo key).reverse d with ⟨_ | _, d'⟩ <;>
      rw [hpair] at h hok hgrows hdirs
    · cases hok
    · exact ⟨d', h, hgrows, hdirs rfl⟩

theorem makeDirs_of_noGap (hplain : Path.IsPlain key) (hgap : ∀ p, p <+: key → ¬ d.IsGap p) :
    (d.makeDirs (pathOf key)).2 = d := by
  have hsame := provideDirs_of_noGap true hplain hgap
  rcases makeDirs_pathOf d hplain with ⟨e, h, -⟩ | ⟨f, h⟩
  · rw [h]
  · rw [h]
    rcases hpair : provideDirs true (stepsTo key).reverse d with ⟨_ | _, d'⟩ <;>
      rw [hpair] at hsame <;> exact hsame

/-- On a tree, a file in the way keeps a directory from being made, and nothing is added. -/
theorem makeDirs_of_file {c : String} (htree : d.IsTree) (hplain : Path.IsPlain key)
    (hk : k <+: key) (hfile : d.entry? k = some (.file c)) :
    ∃ e, d.makeDirs (pathOf key) = (.error e, d) := by
  have hsame : (d.makeDirs (pathOf key)).2 = d := by
    refine makeDirs_of_noGap hplain fun p hp hgap => ?_
    rcases List.prefix_or_prefix_of_prefix hp hk with hpk | hkp
    · by_cases heq : p = k
      · simp [← heq, hgap.missing] at hfile
      · have hdir := htree.dirs_above (by simp [hfile]) hpk heq
        simp [hgap.missing] at hdir
    · by_cases heq : k = p
      · simp [heq, hgap.missing] at hfile
      · simp [hgap.dirs k hkp heq] at hfile
  rcases hmake : d.makeDirs (pathOf key) with ⟨e | u, d'⟩ <;> rw [hmake] at hsame
  · exact ⟨e, by rw [← hsame]⟩
  · have hdir := makeDirs_eq_ok hplain hmake k hk
    rw [show d' = d from hsame, hfile] at hdir
    cases hdir

end Disk
end Marginalia
