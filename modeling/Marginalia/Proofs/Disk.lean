import Marginalia.Disk.Atomic
import Marginalia.Proofs.Paths
import Mathlib.Data.List.TakeWhile

/-!
# What operations do to a disk

A disk is seen as a map from places to entries. A path that is followed to its
end leads to its place, so what a path shows is the entry at its place, provided
that the directories on the way are there. An operation on a file changes the
entries at the places it names and no directory; all other paths show what they
showed before.
-/

namespace Marginalia
namespace Disk

variable {d d' d'' : Disk} {path : String} {key k : Key} {e : Entry}

theorem lookup_map_replace (entries : List (Key × Entry)) (key : Key) (e : Entry) (k : Key) :
    (entries.map fun x => if x.1 == key then (key, e) else x).lookup k =
      if k = key then (if entries.any fun x => x.1 == key then some e else none)
      else entries.lookup k := by
  induction entries with
  | nil => simp
  | cons x entries ih => grind

theorem lookup_filter_ne (entries : List (Key × Entry)) (key k : Key) :
    (entries.filter fun x => !(x.1 == key)).lookup k =
      if k = key then none else entries.lookup k := by
  induction entries with
  | nil => simp
  | cons x entries ih => grind

@[simp] theorem entry?_nil (d : Disk) : d.entry? [] = some .directory := rfl

theorem entry?_of_ne_nil (d : Disk) (hk : k ≠ []) : d.entry? k = d.entries.lookup k := if_neg hk

theorem ne_nil_of_entry?_ne (h : d.entry? key ≠ some .directory) : key ≠ [] := by
  rintro rfl
  exact h (entry?_nil d)

theorem entry?_put (d : Disk) (hkey : key ≠ []) (e : Entry) (k : Key) :
    Disk.entry? (d.put key e) k = if k = key then some e else d.entry? k := by
  by_cases hk : k = []
  · rw [hk, if_neg hkey.symm, entry?_nil, entry?_nil]
  · rw [entry?_of_ne_nil _ hk, entry?_of_ne_nil _ hk, put]
    dsimp only
    split
    · rename_i hany
      rw [lookup_map_replace, hany, if_pos rfl]
    · rename_i hany
      by_cases h : k = key
      · have hnone : d.entries.lookup key = none := by
          rw [List.lookup_eq_none_iff]
          intro x hx
          rw [bne_iff_ne]
          rintro rfl
          exact hany (List.any_eq_true.2 ⟨x, hx, beq_self_eq_true _⟩)
        rw [h, List.lookup_append, hnone]
        simp
      · rw [List.lookup_append, if_neg h]
        simp [List.lookup_cons, beq_false_of_ne h]

theorem entry?_erase (d : Disk) (hkey : key ≠ []) (k : Key) :
    Disk.entry? (d.erase key) k = if k = key then none else d.entry? k := by
  by_cases hk : k = []
  · rw [hk, if_neg hkey.symm, entry?_nil, entry?_nil]
  · rw [entry?_of_ne_nil _ hk, entry?_of_ne_nil _ hk, erase, lookup_filter_ne]

/-- What a path is completed to leads from the root to the place of the path. -/
theorem walk_absolute (d : Disk) {path : String} (hpath : path.isEmpty = false) :
    Path.walk [] (d.absolute path).toList = d.placeOf path := by
  unfold absolute placeOf
  rw [hpath, Bool.false_or]
  split
  · rename_i h
    rw [Path.segments, if_pos h]
  · rename_i h
    have hrel : Path.isAbsolute path.toList = false := by simpa using h
    rw [← Path.segments_nil_left, Path.segments_join [] _ hrel, Path.segments_nil_left,
      Path.segments_of_relative _ hrel]

theorem isTooLong_eq_false_of_isIdle {s : Path.Segment} (h : Path.isIdle s = true) :
    isTooLong s = false := by
  rcases Bool.or_eq_true_iff.1 h with h | h <;> rw [beq_iff_eq.1 h] <;> decide

/-- A step starts in a directory and is short enough, and then it leads where the path says. -/
theorem step_eq_ok_iff {place next : Key} {s : Path.Segment} :
    d.step place s = .ok next ↔ d.entry? place = some .directory ∧ isTooLong s = false ∧
      next = (Path.step place.reverse s).reverse := by
  unfold step
  cases hplace : d.entry? place with
  | none => simp
  | some e =>
    cases e with
    | file _ => simp
    | directory =>
      by_cases hidle : Path.isIdle s = true
      · simp [hidle, Path.step_of_isIdle hidle, isTooLong_eq_false_of_isIdle hidle, eq_comm]
      · by_cases hup : s = Path.up
        · subst hup
          simp [Path.step_up, show Path.isIdle Path.up = false from rfl,
            show isTooLong Path.up = false by decide, eq_comm]
        · have hname : Path.IsName s := ⟨by simpa using hidle, hup⟩
          by_cases hlong : isTooLong s = true
          · simp [hidle, hup, hlong]
          · simp [hidle, hup, hlong, Path.step_of_isName hname, eq_comm]

theorem eq_of_follow {place key : Key} {r : Route} (h : d.follow place r = .ok key) :
    key = (r.foldl Path.step place.reverse).reverse := by
  induction r generalizing place with
  | nil => simpa [follow, eq_comm] using h
  | cons s r ih =>
    rw [follow] at h
    split at h
    · rename_i next hstep
      rw [ih h, (step_eq_ok_iff.1 hstep).2.2, List.reverse_reverse, List.foldl_cons]
    · cases h

/-- A path can be followed to its end. What is at the end need not be there. -/
def Reaches (d : Disk) (path : String) : Prop :=
  ∃ r key, d.route path = .ok r ∧ d.follow [] r = .ok key

theorem route_eq_ok {r : Route} (h : d.route path = .ok r) :
    path.isEmpty = false ∧ r = Path.pieces (d.absolute path).toList := by
  unfold route at h
  split at h
  · cases h
  · rename_i hlegal
    split at h
    · cases h
    · have hparts : path.isEmpty = false ∧ isIllegal path = false := by simpa using hlegal
      exact ⟨hparts.1, (Except.ok.inj h).symm⟩

theorem eq_pieces_of_route {r : Route} (h : d.route path = .ok r) :
    r = Path.pieces (d.absolute path).toList :=
  (route_eq_ok h).2

theorem foldl_step_of_route {r : Route} (h : d.route path = .ok r) :
    (r.foldl Path.step []).reverse = d.placeOf path := by
  obtain ⟨hpath, rfl⟩ := route_eq_ok h
  exact walk_absolute d hpath

theorem eq_placeOf_of_follow {r : Route} (hr : d.route path = .ok r)
    (h : d.follow [] r = .ok key) : key = d.placeOf path := by
  rw [eq_of_follow h]
  exact foldl_step_of_route hr

theorem locate_eq_ok_iff :
    d.locate path = .ok (key, e) ↔
      d.Reaches path ∧ key = d.placeOf path ∧ d.entry? key = some e := by
  constructor
  · intro h
    unfold locate find at h
    split at h
    · rename_i r hr
      split at h
      · cases h
      · rename_i last hf
        split at h
        · rename_i found he
          cases h
          exact ⟨⟨r, key, hr, hf⟩, eq_placeOf_of_follow hr hf, he⟩
        · cases h
    · cases h
  · rintro ⟨⟨r, last, hr, hf⟩, rfl, he⟩
    obtain rfl := eq_placeOf_of_follow hr hf
    simp only [locate, find, hr, hf, he]

/-- What a path shows, if it leads to something. -/
def lookAt (d : Disk) (path : String) : Option Entry := (d.locate path).toOption.map (·.2)

theorem lookAt_eq_some_iff :
    d.lookAt path = some e ↔ d.Reaches path ∧ d.entry? (d.placeOf path) = some e := by
  unfold lookAt
  rcases h : d.locate path with cause | ⟨key, found⟩
  · have hno : ¬ (d.Reaches path ∧ d.entry? (d.placeOf path) = some e) := by
      rintro ⟨hreach, he⟩
      rw [locate_eq_ok_iff.2 ⟨hreach, rfl, he⟩] at h
      cases h
    simp [Except.toOption, hno]
  · obtain ⟨hreach, rfl, he⟩ := locate_eq_ok_iff.1 h
    simp [Except.toOption, hreach, he]

theorem lookAt_eq_none_of_entry? (h : d.entry? (d.placeOf path) = none) : d.lookAt path = none := by
  rw [Option.eq_none_iff_forall_ne_some]
  intro e he
  rw [(lookAt_eq_some_iff.1 he).2] at h
  cases h

theorem lookAt_of_locate_error {cause : Cause} (h : d.locate path = .error cause) :
    d.lookAt path = none := by
  rw [lookAt, h]
  rfl

theorem hasPath_eq (d : Disk) (path : String) : d.hasPath path = (d.lookAt path).isSome := by
  rw [hasPath, lookAt, Option.isSome_map]

theorem read_eq_ok_iff {content : String} :
    d.read path = .ok content ↔ d.lookAt path = some (.file content) := by
  unfold read lookAt
  rcases d.locate path with cause | ⟨key, _ | _⟩ <;> simp [Except.toOption]

/-- The content of an entry that is a file. -/
def Entry.content? : Entry → Option String
  | .file content => some content
  | .directory => none

theorem toOption_read (d : Disk) (path : String) :
    (d.read path).toOption = (d.lookAt path).bind Entry.content? := by
  unfold read lookAt
  rcases d.locate path with cause | ⟨key, _ | _⟩ <;> rfl

structure SameDirs (d d' : Disk) : Prop where
  workingDir : d'.workingDir = d.workingDir
  directories : ∀ key, d'.entry? key = some .directory ↔ d.entry? key = some .directory

namespace SameDirs

theorem refl (d : Disk) : SameDirs d d := ⟨rfl, fun _ => Iff.rfl⟩

theorem symm (h : SameDirs d d') : SameDirs d' d :=
  ⟨h.workingDir.symm, fun key => (h.directories key).symm⟩

theorem trans (h : SameDirs d d') (h' : SameDirs d' d'') : SameDirs d d'' :=
  ⟨h'.workingDir.trans h.workingDir, fun key => (h'.directories key).trans (h.directories key)⟩

theorem placeOf_eq (h : SameDirs d d') (path : String) : d'.placeOf path = d.placeOf path := by
  rw [placeOf, placeOf, h.workingDir]

theorem absolute_eq (h : SameDirs d d') (path : String) : d'.absolute path = d.absolute path := by
  rw [absolute, absolute, h.workingDir]

theorem follow {place : Key} {r : Route} (h : SameDirs d d') (hf : d.follow place r = .ok key) :
    d'.follow place r = .ok key := by
  induction r generalizing place with
  | nil => exact hf
  | cons s r ih =>
    rw [Disk.follow] at hf ⊢
    split at hf
    · rename_i next hstep
      obtain ⟨hdir, hshort⟩ := step_eq_ok_iff.1 hstep
      rw [step_eq_ok_iff.2 ⟨(h.directories place).2 hdir, hshort⟩]
      exact ih hf
    · cases hf

theorem reaches (h : SameDirs d d') (hreach : d.Reaches path) : d'.Reaches path := by
  obtain ⟨r, key, hr, hf⟩ := hreach
  refine ⟨r, key, ?_, h.follow hf⟩
  rw [route, h.absolute_eq]
  exact hr

theorem lookAt_eq_some_iff (h : SameDirs d d') :
    d'.lookAt path = some e ↔ d.Reaches path ∧ d'.entry? (d.placeOf path) = some e := by
  rw [Disk.lookAt_eq_some_iff, h.placeOf_eq]
  exact and_congr_left fun _ => ⟨h.symm.reaches, h.reaches⟩

theorem lookAt_eq (h : SameDirs d d')
    (he : d'.entry? (d.placeOf path) = d.entry? (d.placeOf path)) :
    d'.lookAt path = d.lookAt path := by
  ext e
  rw [h.lookAt_eq_some_iff, Disk.lookAt_eq_some_iff, he]

theorem put_file (he : d.entry? key ≠ some .directory) (content : String) :
    SameDirs d (d.put key (.file content)) := by
  refine ⟨rfl, fun k => ?_⟩
  rw [entry?_put d (ne_nil_of_entry?_ne he)]
  split
  · rename_i hk
    simp [hk, he]
  · exact Iff.rfl

theorem erase_file (he : d.entry? key ≠ some .directory) : SameDirs d (d.erase key) := by
  refine ⟨rfl, fun k => ?_⟩
  rw [entry?_erase d (ne_nil_of_entry?_ne he)]
  split
  · rename_i hk
    simp [hk, he]
  · exact Iff.rfl

end SameDirs

/-- Two disks have the same directories, and their files differ at some places only. -/
structure FilesDiffer (places : Set Key) (d d' : Disk) : Prop extends SameDirs d d' where
  elsewhere : ∀ key ∉ places, d'.entry? key = d.entry? key

namespace FilesDiffer

variable {places places' : Set Key}

theorem refl (places : Set Key) (d : Disk) : FilesDiffer places d d :=
  ⟨SameDirs.refl d, fun _ _ => rfl⟩

theorem lookAt_eq (h : FilesDiffer places d d') (hpath : d.placeOf path ∉ places) :
    d'.lookAt path = d.lookAt path :=
  h.toSameDirs.lookAt_eq (h.elsewhere _ hpath)

theorem put_file (he : d.entry? key ≠ some .directory) (content : String) :
    FilesDiffer {key} d (d.put key (.file content)) := by
  refine ⟨SameDirs.put_file he content, fun k hk => ?_⟩
  rw [entry?_put d (ne_nil_of_entry?_ne he), if_neg (Set.notMem_singleton_iff.1 hk)]

theorem erase_file (he : d.entry? key ≠ some .directory) : FilesDiffer {key} d (d.erase key) := by
  refine ⟨SameDirs.erase_file he, fun k hk => ?_⟩
  rw [entry?_erase d (ne_nil_of_entry?_ne he), if_neg (Set.notMem_singleton_iff.1 hk)]

theorem trans (h : FilesDiffer places d d') (h' : FilesDiffer places' d' d'') :
    FilesDiffer (places ∪ places') d d'' := by
  refine ⟨h.toSameDirs.trans h'.toSameDirs, fun key hkey => ?_⟩
  rw [Set.mem_union, not_or] at hkey
  rw [h'.elsewhere key hkey.2, h.elsewhere key hkey.1]

end FilesDiffer

theorem Route.eq_of_backwards {r : Route} {last : Path.Segment} {front : List Path.Segment}
    (h : Route.backwards r = last :: front) :
    ∃ slashes : List Path.Segment, (∀ s ∈ slashes, s = []) ∧
      r = front.reverse ++ last :: slashes ∧ (Route.endsInSlash r = false → slashes = []) := by
  obtain ⟨blanks, hblanks, hr⟩ :
      ∃ blanks : List Path.Segment, (∀ s ∈ blanks, s = []) ∧
        r.reverse = blanks ++ last :: front := by
    refine ⟨r.reverse.takeWhile (· = []), fun s hs => ?_, ?_⟩
    · simpa using List.mem_takeWhile_imp hs
    · rw [← h]
      exact List.takeWhile_append_dropWhile.symm
  refine ⟨blanks.reverse, fun s hs => hblanks s (List.mem_reverse.1 hs), ?_, fun hend => ?_⟩
  · rw [← List.reverse_reverse r, hr]
    simp
  · cases blanks with
    | nil => rfl
    | cons s blanks =>
      rw [Route.endsInSlash, List.getLast?_eq_head?_reverse, hr,
        hblanks s List.mem_cons_self] at hend
      simp at hend

theorem foldl_step_blanks {slashes : List Path.Segment} (h : ∀ s ∈ slashes, s = [])
    (stack : List Path.Segment) : slashes.foldl Path.step stack = stack := by
  induction slashes with
  | nil => rfl
  | cons s slashes ih =>
    rw [List.foldl_cons, h s List.mem_cons_self]
    exact ih fun t ht => h t (List.mem_cons_of_mem _ ht)

/-- A route to a name leads to its key, and behind that only slashes follow. -/
theorem target_named_cases {r : Route} {slash : Bool} (h : d.target r = .ok (.named key slash)) :
    ∃ front slashes : List Path.Segment, (∀ s ∈ slashes, s = []) ∧ r = front ++ slashes ∧
      d.follow [] front = .ok key ∧ (slash = false → slashes = []) := by
  unfold target at h
  split at h
  · rename_i hr
    have hblank : ∀ s ∈ r, s = [] := by
      have hall := List.dropWhile_eq_nil_iff.1 hr
      intro s hs
      simpa using hall s (List.mem_reverse.2 hs)
    cases h
    exact ⟨[], r, hblank, rfl, rfl, by simp⟩
  · rename_i last front hr
    obtain ⟨slashes, hblank, hcut, hend⟩ := Route.eq_of_backwards hr
    split at h
    · cases h
    · rename_i place hfollow
      split at h
      · cases h
      · rename_i next hstep
        split at h
        · cases h
        · cases h
          refine ⟨front.reverse ++ [last], slashes, hblank, ?_, ?_, hend⟩
          · rw [hcut, List.append_assoc, List.singleton_append]
          · rw [follow_append, hfollow]
            simp only [Except.bind, follow, hstep]

theorem target_eq_named {r : Route} {slash : Bool} (h : d.target r = .ok (.named key slash)) :
    key = (r.foldl Path.step []).reverse ∧ (slash = false → d.follow [] r = .ok key) := by
  obtain ⟨front, slashes, hblank, rfl, hfollow, hend⟩ := target_named_cases h
  constructor
  · rw [List.foldl_append, foldl_step_blanks hblank]
    exact eq_of_follow hfollow
  · intro hslash
    rwa [hend hslash, List.append_nil]

theorem targetOf_eq_named {slash : Bool} (h : d.targetOf path = .ok (.named key slash)) :
    key = d.placeOf path ∧ (slash = false → d.Reaches path) := by
  unfold targetOf at h
  split at h
  · rename_i r hr
    obtain ⟨hkey, hfollow⟩ := target_eq_named h
    refine ⟨?_, fun hslash => ⟨r, key, hr, hfollow hslash⟩⟩
    rw [hkey]
    exact foldl_step_of_route hr
  · cases h

theorem SameDirs.targetOf {target : Target} (h : SameDirs d d')
    (htarget : d.targetOf path = .ok target) : d'.targetOf path = .ok target := by
  unfold Disk.targetOf at htarget ⊢
  have hroute : d'.route path = d.route path := by rw [route, route, h.absolute_eq]
  rw [hroute]
  split at htarget
  · rename_i r hr
    unfold Disk.target at htarget ⊢
    split at htarget
    · exact htarget
    · split at htarget
      · cases htarget
      · rename_i place hfollow
        rw [h.follow hfollow]
        split at htarget
        · cases htarget
        · rename_i key hstep
          obtain ⟨hplace, hrest⟩ := step_eq_ok_iff.1 hstep
          have hstep' := step_eq_ok_iff.2 ⟨(h.directories place).2 hplace, hrest⟩
          simp only [hstep']
          exact htarget
  · cases htarget

theorem update_eq_ok {content : Option String → String} (h : d.update path content = .ok d') :
    d.targetOf path = .ok (.named (d.placeOf path) false) ∧
      ∃ old : Option String, d.entry? (d.placeOf path) = old.map .file ∧
        d' = d.put (d.placeOf path) (.file (content old)) := by
  unfold update at h
  dsimp only at h
  split at h
  · cases h
  · split at h
    · cases h
    · cases h
    · rename_i key slash htarget
      obtain ⟨rfl, -⟩ := targetOf_eq_named htarget
      split at h
      · cases h
      · cases h
      · rename_i old he
        cases h
        exact ⟨htarget, some old, he, rfl⟩
      · rename_i he
        cases h
        exact ⟨htarget, none, he, rfl⟩

theorem lookAt_update {content : Option String → String} (h : d.update path content = .ok d') :
    FilesDiffer {d.placeOf path} d d' ∧ ∃ old : Option String,
      d.lookAt path = old.map .file ∧ d'.lookAt path = some (.file (content old)) := by
  obtain ⟨htarget, old, he, rfl⟩ := update_eq_ok h
  have hreach := (targetOf_eq_named htarget).2 rfl
  have hfile : d.entry? (d.placeOf path) ≠ some .directory := by
    cases old <;> simp [he]
  have hdiffer := FilesDiffer.put_file hfile (content old)
  refine ⟨hdiffer, old, ?_, ?_⟩
  · ext e
    rw [lookAt_eq_some_iff, he]
    exact and_iff_right hreach
  · rw [hdiffer.toSameDirs.lookAt_eq_some_iff, entry?_put d (ne_nil_of_entry?_ne hfile), if_pos rfl]
    exact ⟨hreach, rfl⟩

theorem lookAt_discard (h : d.discard path = .ok d') :
    FilesDiffer {d.placeOf path} d d' ∧ d'.lookAt path = none := by
  unfold discard at h
  split at h
  · rename_i key content hlocate
    obtain ⟨-, rfl, he⟩ := locate_eq_ok_iff.1 hlocate
    cases h
    have hfile : d.entry? (d.placeOf path) ≠ some .directory := by simp [he]
    have hdiffer := FilesDiffer.erase_file hfile
    refine ⟨hdiffer, lookAt_eq_none_of_entry? ?_⟩
    rw [hdiffer.placeOf_eq, entry?_erase d (ne_nil_of_entry?_ne hfile), if_pos rfl]
  · cases h
  · rename_i hlocate
    cases h
    exact ⟨FilesDiffer.refl _ d, lookAt_of_locate_error hlocate⟩
  · cases h

theorem moveObstacle?_file {source target : Key} {content : String}
    (h : d.moveObstacle? source target (.file content) = none) :
    d.entry? target ≠ some .directory := by
  intro he
  simp only [moveObstacle?, he] at h
  split at h <;> cases h

theorem move_file_eq_ok {source target : Key} {slash : Bool} {content : String}
    (hsource : d.entry? source = some (.file content)) (hne : source ≠ target)
    (h : d.move source target slash = .ok d') :
    slash = false ∧ d.entry? target ≠ some .directory ∧
      d' = (d.erase source).put target (.file content) := by
  simp only [move, hsource, if_neg hne] at h
  split at h
  · cases h
  · rename_i hslash
    rw [if_neg (by simp)] at h
    cases hobstacle : d.moveObstacle? source target (.file content) with
    | some cause => simp [hobstacle] at h
    | none =>
      rw [hobstacle] at h
      cases h
      exact ⟨by simpa using hslash, moveObstacle?_file hobstacle, rfl⟩

/-- A name is moved to itself, a file is moved over a file or to a free name, or a directory is
moved with all that is below it, to a place neither above nor below it. -/
theorem move_cases {source target : Key} {slash : Bool}
    (h : d.move source target slash = .ok d') :
    (source = target ∧ (slash = true → d.entry? source = some .directory) ∧ d' = d) ∨
    (source ≠ target ∧ d.entry? target ≠ some .directory ∧
      ∃ content, d.entry? source = some (.file content) ∧
        d' = (d.erase source).put target (.file content)) ∨
    (¬ source <+: target ∧ ¬ target <+: source ∧
      d' = (d.erase target).moveAll source target) := by
  cases hsource : d.entry? source with
  | none => simp [move, hsource] at h
  | some moved =>
    by_cases heq : source = target
    · subst heq
      left
      cases moved with
      | file content => cases slash <;> simp_all [move]
      | directory => simp_all [move]
    · right
      cases moved with
      | file content =>
        obtain ⟨-, htarget, rfl⟩ := move_file_eq_ok hsource heq h
        exact .inl ⟨heq, htarget, content, rfl, rfl⟩
      | directory =>
        right
        simp only [move, hsource, if_neg heq] at h
        split at h
        · cases h
        · split at h
          · cases h
          · rename_i hbelow
            cases hobstacle : d.moveObstacle? source target .directory with
            | some cause => simp [hobstacle] at h
            | none =>
              rw [hobstacle] at h
              cases h
              refine ⟨by simpa [heq] using hbelow, fun habove => ?_, rfl⟩
              have hne : target ≠ source := Ne.symm heq
              simp [moveObstacle?, habove, hne] at hobstacle

theorem rename_eq_ok {source target : String} (h : d.rename source target = .ok d') :
    ∃ slash slash', d.targetOf source = .ok (.named (d.placeOf source) slash) ∧
      d.targetOf target = .ok (.named (d.placeOf target) slash') ∧
      d.move (d.placeOf source) (d.placeOf target) (slash || slash') = .ok d' := by
  unfold rename at h
  split at h
  · cases h
  · cases h
  · rename_i a slash b slash' ha hb
    obtain ⟨rfl, -⟩ := targetOf_eq_named ha
    obtain ⟨rfl, -⟩ := targetOf_eq_named hb
    split at h
    · rename_i hmove
      cases h
      exact ⟨slash, slash', ha, hb, hmove⟩
    · cases h
  · cases h

/-- A renamed file is found under its new name, and these two names are all that differs. -/
theorem lookAt_rename_file {source target content : String}
    (hsource : d.lookAt source = some (.file content)) (hne : d.placeOf source ≠ d.placeOf target)
    (h : d.rename source target = .ok d') :
    FilesDiffer {d.placeOf source, d.placeOf target} d d' ∧ d'.lookAt source = none ∧
      d'.lookAt target = some (.file content) := by
  have hfile := (lookAt_eq_some_iff.1 hsource).2
  have hfile' : d.entry? (d.placeOf source) ≠ some .directory := by simp [hfile]
  obtain ⟨slash, slash', -, htargetOf, hmove⟩ := rename_eq_ok h
  obtain ⟨hslash, htarget, rfl⟩ := move_file_eq_ok hfile hne hmove
  have herase := FilesDiffer.erase_file hfile'
  have htarget' : Disk.entry? (d.erase (d.placeOf source)) (d.placeOf target) ≠
      some .directory := by
    rwa [herase.elsewhere _ (Ne.symm hne)]
  have hdiffer := herase.trans (FilesDiffer.put_file htarget' content)
  refine ⟨hdiffer, lookAt_eq_none_of_entry? ?_, ?_⟩
  · rw [hdiffer.placeOf_eq, entry?_put _ (ne_nil_of_entry?_ne htarget), if_neg hne,
      entry?_erase d (ne_nil_of_entry?_ne hfile'), if_pos rfl]
  · rw [hdiffer.toSameDirs.lookAt_eq_some_iff, entry?_put _ (ne_nil_of_entry?_ne htarget),
      if_pos rfl]
    exact ⟨(targetOf_eq_named htargetOf).2 (Bool.or_eq_false_iff.1 hslash).2, rfl⟩

theorem unlink_eq_ok (h : d.unlink path = .ok d') :
    d' = d.erase (d.placeOf path) ∧
      ∃ content, d.entry? (d.placeOf path) = some (.file content) := by
  unfold unlink at h
  dsimp only at h
  split at h
  · cases h
  · cases h
  · rename_i key slash htarget
    obtain ⟨rfl, -⟩ := targetOf_eq_named htarget
    split at h
    · cases h
    · cases h
    · rename_i content he
      split at h
      · cases h
      · cases h
        exact ⟨rfl, content, he⟩

namespace Action

variable {α β : Type}

@[simp] theorem get_bind (f : Disk → Action β) (d : Disk) : (get >>= f) d = f d d := rfl

theorem bind_apply (m : Action α) (f : α → Action β) (d : Disk) :
    (m >>= f) d =
      match m d with
      | (.ok a, d') => f a d'
      | (.error e, d') => (.error e, d') := by
  simp only [bind, ExceptT.bind, ExceptT.mk, ExceptT.bindCont, StateT.bind]
  rcases m d with ⟨_ | _, d'⟩ <;> rfl

theorem bind_eq_ok {m : Action α} {f : α → Action β} {b : β} (h : (m >>= f) d = (.ok b, d'')) :
    ∃ a d', m d = (.ok a, d') ∧ f a d' = (.ok b, d'') := by
  rw [bind_apply] at h
  rcases hm : m d with ⟨_ | a, d'⟩ <;> rw [hm] at h
  · cases h
  · exact ⟨a, d', rfl, h⟩

theorem tryCatch_apply (m : Action α) (handle : Fault → Action α) (d : Disk) :
    (tryCatch m handle : Action α) d =
      match m d with
      | (.ok a, d') => (.ok a, d')
      | (.error e, d') => handle e d' := by
  change (ExceptT.tryCatch m handle : Action α) d = _
  simp only [ExceptT.tryCatch, ExceptT.mk, bind, StateT.bind]
  rcases m d with ⟨_ | _, d'⟩ <;> rfl

theorem of_apply (operation : Disk → Except Fault Disk) (d : Disk) :
    Action.of operation d =
      match operation d with
      | .ok d' => (.ok (), d')
      | .error e => (.error e, d) := rfl

theorem of_eq_ok {operation : Disk → Except Fault Disk} {u : Unit}
    (h : Action.of operation d = (.ok u, d')) : operation d = .ok d' := by
  unfold Action.of at h
  split at h
  · rename_i heq
    cases h
    exact heq
  · cases h

end Action

end Disk
end Marginalia
