import Marginalia.Proofs.Directories

/-!
# Writing a file in one step, or not at all

A file that is written in one step appears with its whole content, and the
directories above it with it. If it cannot be written, the temporary file is
gone again and the disk is as it was, except that directories above the file may
have been added. On a tree not even these are added where the path of the
temporary file fits.
-/

namespace Marginalia
namespace Disk

variable {d d' : Disk} {key k : Key} {tag content : String}

def mark (tag : String) : Path.Segment := (".tmp." ++ tag).toList

/-- The place of the temporary file beside a place. -/
def tempPlace (tag : String) (key : Key) : Key := key.dropLast ++ [key.getLast?.getD [] ++ mark tag]

theorem tempPlace_concat (tag : String) (front : Key) (s : Path.Segment) :
    tempPlace tag (front ++ [s]) = front ++ [s ++ mark tag] := by
  simp [tempPlace]

theorem temporary_pathOf (tag : String) (key : Key) :
    temporary tag (pathOf key) = pathOf (tempPlace tag key) := by
  rw [← String.toList_inj, toList_pathOf]
  rcases List.eq_nil_or_concat' key with rfl | ⟨front, s, rfl⟩
  · simp [temporary, toList_pathOf, tempPlace, mark, Path.ofSegments, List.intercalate]
  · rw [tempPlace_concat, Path.ofSegments_concat]
    simp [temporary, toList_pathOf, Path.ofSegments_concat, mark]

theorem directory_pathOf (hplain : Path.IsPlain key) :
    Path.directory (pathOf key) = pathOf key.dropLast := by
  rcases List.eq_nil_or_concat' key with rfl | ⟨front, s, rfl⟩
  · decide
  · rw [List.dropLast_concat]
    exact Path.directory_ofSegments_concat hplain

theorem isPlain_dropLast (hplain : Path.IsPlain key) : Path.IsPlain key.dropLast :=
  fun s hs => hplain s (List.dropLast_subset key hs)

theorem prefix_dropLast (hk : k <+: key) (hne : k ≠ key) : k <+: key.dropLast := by
  rcases List.eq_nil_or_concat' key with rfl | ⟨front, s, rfl⟩
  · exact absurd (List.prefix_nil.1 hk) hne
  · rw [List.dropLast_concat]
    exact (List.prefix_concat_iff.1 hk).resolve_left hne

theorem isPlain_tempPlace (hplain : Path.IsPlain key) (htag : '/' ∉ tag.toList) :
    Path.IsPlain (tempPlace tag key) := by
  have hlast : '/' ∉ key.getLast?.getD [] := by
    rcases h : key.getLast? with _ | s
    · simp
    · exact (hplain s (List.mem_of_getLast? h)).2
  have hlen : 2 < (key.getLast?.getD [] ++ mark tag).length := by
    simp [mark]
    omega
  refine (isPlain_dropLast hplain).concat (Path.isName_of_two_lt_length hlen) ?_
  simp [mark, hlast, htag]

theorem tempPlace_not_above (tag : String) (key : Key) : ¬ tempPlace tag key <+: key.dropLast := by
  intro h
  have hlen := h.length_le
  simp [tempPlace] at hlen

theorem tempPlace_ne_nil (tag : String) (key : Key) : tempPlace tag key ≠ [] := by
  simp [tempPlace]

theorem tempPlace_ne (tag : String) (key : Key) : tempPlace tag key ≠ key := by
  rcases List.eq_nil_or_concat' key with rfl | ⟨front, s, rfl⟩
  · simp [tempPlace]
  · rw [tempPlace_concat]
    intro h
    have hlast := List.singleton_inj.1 (List.append_cancel_left h)
    have hlen := congrArg List.length hlast
    simp [mark] at hlen

theorem writeSteps_apply (tag target content : String) (d : Disk) :
    writeSteps tag target content d =
      match d.makeDirs (Path.directory target) with
      | (.error e, d₁) => (.error e, d₁)
      | (.ok _, d₁) =>
        match d₁.write (temporary tag target) content with
        | .error e => (.error e, d₁)
        | .ok d₂ =>
          match d₂.rename (temporary tag target) target with
          | .error e => (.error e, d₂)
          | .ok d₃ => (.ok (), d₃) := by
  have hmake : Action.ofSteps (·.makeDirs (Path.directory target)) d =
    d.makeDirs (Path.directory target) := rfl
  unfold writeSteps
  rw [Action.bind_apply, hmake]
  rcases d.makeDirs (Path.directory target) with ⟨_ | _, d₁⟩
  · rfl
  · dsimp only
    rw [Action.bind_apply, Action.of_apply]
    rcases d₁.write (temporary tag target) content with _ | d₂
    · rfl
    · dsimp only
      rw [Action.of_apply]
      rcases d₂.rename (temporary tag target) target with _ | d₃ <;> rfl

/-- A failed step leaves the directories that were made, and the temporary file if that was
written. -/
theorem writeSteps_eq_error {target : String} {e : Fault}
    (h : writeSteps tag target content d = (.error e, d')) :
    d' = (d.makeDirs (Path.directory target)).2 ∨
      (d.makeDirs (Path.directory target)).2.write (temporary tag target) content = .ok d' := by
  rw [writeSteps_apply] at h
  rcases hmake : d.makeDirs (Path.directory target) with ⟨_ | _, d₁⟩ <;> rw [hmake] at h
  · cases h
    exact .inl rfl
  · dsimp only at h
    rcases hwrite : d₁.write (temporary tag target) content with _ | d₂ <;> rw [hwrite] at h
    · cases h
      exact .inl rfl
    · dsimp only at h
      rcases hrename : d₂.rename (temporary tag target) target with _ | d₃ <;> rw [hrename] at h
      · cases h
        exact .inr rfl
      · cases h

/-- What the removal of a temporary file leaves. -/
def withoutTemp (tag target : String) (d : Disk) : Disk :=
  match d.unlink (temporary tag target) with
  | .ok d' => d'
  | .error _ => d

/-- If a step fails, the temporary file is removed as far as it can be. -/
theorem writeAtomic_apply (tag target content : String) (d : Disk) :
    writeAtomic tag target content d =
      match writeSteps tag target content d with
      | (.ok u, d') => (.ok u, d')
      | (.error e, d') => (.error e, withoutTemp tag target d') := by
  unfold writeAtomic withoutTemp
  rw [Action.tryCatch_apply]
  rcases writeSteps tag target content d with ⟨e | _, d'⟩
  · dsimp only
    rw [Action.bind_apply, Action.tryCatch_apply, Action.of_apply]
    rcases d'.unlink (temporary tag target) with _ | d'' <;> rfl
  · rfl

theorem withoutTemp_entry? (tag target : String) (d : Disk) :
    (∀ k, k ≠ d.placeOf (temporary tag target) →
        Disk.entry? (withoutTemp tag target d) k = d.entry? k) ∧
      (withoutTemp tag target d = d ∨
        (∃ c, d.entry? (d.placeOf (temporary tag target)) = some (.file c)) ∧
          Disk.entry? (withoutTemp tag target d) (d.placeOf (temporary tag target)) = none) := by
  unfold withoutTemp
  split
  · rename_i d' hunlink
    obtain ⟨rfl, content, hfile⟩ := unlink_eq_ok hunlink
    have hne : d.placeOf (temporary tag target) ≠ [] :=
      ne_nil_of_entry?_ne (d := d) (by simp [hfile])
    refine ⟨fun k hk => ?_, .inr ⟨⟨content, hfile⟩, ?_⟩⟩
    · rw [entry?_erase d hne, if_neg hk]
    · rw [entry?_erase d hne, if_pos rfl]
  · exact ⟨fun _ _ => rfl, .inl rfl⟩

theorem withoutTemp_write {target : String} (h : d.write (temporary tag target) content = .ok d') :
    withoutTemp tag target d' =
      (d.put (d.placeOf (temporary tag target)) (.file content)).erase
        (d.placeOf (temporary tag target)) := by
  obtain ⟨htarget, old, hold, rfl⟩ := update_eq_ok h
  have hfile : d.entry? (d.placeOf (temporary tag target)) ≠ some .directory := by
    cases old <;> simp [hold]
  have htarget' := (SameDirs.put_file hfile content).targetOf htarget
  have hentry := entry?_put d (ne_nil_of_entry?_ne hfile) (.file content)
  simp [withoutTemp, unlink, htarget', hentry]

theorem entry?_erase_put (d : Disk) (hkey : key ≠ []) (e : Entry) (k : Key) :
    Disk.entry? ((d.put key e).erase key) k = if k = key then none else d.entry? k := by
  rw [entry?_erase _ hkey]
  split_ifs with hk
  · rfl
  · rw [entry?_put d hkey, if_neg hk]

/-- After a failed write nothing is different apart from the directories that were made above the
file; a file that had the temporary name before may be gone. -/
theorem entry?_of_writeAtomic_error {e : Fault} (hplain : Path.IsPlain key)
    (htag : '/' ∉ tag.toList) (h : writeAtomic tag (pathOf key) content d = (.error e, d')) :
    (∀ k, k ≠ tempPlace tag key →
        d'.entry? k = Disk.entry? (d.makeDirs (pathOf key.dropLast)).2 k) ∧
      (d'.entry? (tempPlace tag key) = d.entry? (tempPlace tag key) ∨
        (∃ c, d.entry? (tempPlace tag key) = some (.file c)) ∧
          d'.entry? (tempPlace tag key) = none) := by
  obtain ⟨hgrows, -⟩ := makeDirs_grows (isPlain_dropLast hplain) d
  have htemp := hgrows.entry?_of_not_above (tempPlace_not_above tag key)
  have hplace : ∀ d : Disk, d.placeOf (temporary tag (pathOf key)) = tempPlace tag key := by
    intro d
    rw [temporary_pathOf, placeOf_pathOf d (isPlain_tempPlace hplain htag)]
  rw [writeAtomic_apply] at h
  rcases hsteps : writeSteps tag (pathOf key) content d with ⟨_ | _, d₂⟩ <;> rw [hsteps] at h
  · cases h
    rcases writeSteps_eq_error hsteps with rfl | hwrite
    · obtain ⟨hother, hsame⟩ := withoutTemp_entry? tag (pathOf key)
        (d.makeDirs (Path.directory (pathOf key))).2
      rw [hplace, directory_pathOf hplain] at hother hsame
      rw [directory_pathOf hplain]
      refine ⟨hother, ?_⟩
      rcases hsame with heq | ⟨hfile, hgone⟩
      · exact .inl (by rw [heq, htemp])
      · exact .inr ⟨htemp ▸ hfile, hgone⟩
    · obtain ⟨-, old, hold, -⟩ := update_eq_ok hwrite
      rw [hplace, directory_pathOf hplain, htemp] at hold
      rw [withoutTemp_write hwrite, hplace, directory_pathOf hplain]
      have hentry := entry?_erase_put (d.makeDirs (pathOf key.dropLast)).2
        (tempPlace_ne_nil tag key) (.file content)
      refine ⟨fun k hk => by rw [hentry, if_neg hk], ?_⟩
      rw [hentry, if_pos rfl]
      cases old with
      | none => exact .inl hold.symm
      | some c => exact .inr ⟨⟨c, hold⟩, rfl⟩
  · cases h

/-- A file can be written at a place: the path of the temporary file fits and nothing is there, no
file is in the way, and no directory is at the place. -/
structure Writable (tag : String) (key : Key) (d : Disk) : Prop where
  fits : Fits (pathOf (tempPlace tag key))
  isFree : d.entry? (tempPlace tag key) = none
  noFile : ∀ k, k <+: key → k ≠ key → ∀ c, d.entry? k ≠ some (.file c)
  noDirectory : d.entry? key ≠ some .directory

theorem writable_iff : d.Writable tag key ↔
    Fits (pathOf (tempPlace tag key)) ∧ d.entry? (tempPlace tag key) = none ∧
      (∀ k ∈ key.inits, k ≠ key → d.entry? k = none ∨ d.entry? k = some .directory) ∧
      d.entry? key ≠ some .directory := by
  simp only [List.mem_inits]
  constructor
  · rintro ⟨hfits, hfree, hfile, hdir⟩
    refine ⟨hfits, hfree, fun k hk hne => ?_, hdir⟩
    rcases hentry : d.entry? k with _ | c | _
    · exact .inl rfl
    · exact absurd hentry (hfile k hk hne c)
    · exact .inr rfl
  · rintro ⟨hfits, hfree, hplaces, hdir⟩
    refine ⟨hfits, hfree, fun k hk hne c hfile => ?_, hdir⟩
    rcases hplaces k hk hne with hother | hother <;> simp [hother] at hfile

instance (tag : String) (key : Key) (d : Disk) : Decidable (d.Writable tag key) :=
  decidable_of_iff _ writable_iff.symm

theorem write_eq_ok (htarget : d.targetOf (pathOf key) = .ok (.named key false))
    (hfits : Fits (pathOf key)) (hnone : d.entry? key = none) (content : String) :
    d.write (pathOf key) content = .ok (d.put key (.file content)) := by
  simp only [write, update, hfits.isLegal, Bool.false_eq_true, if_false, htarget, hnone]

theorem rename_file_eq_ok {source target : Key}
    (hsource : d.targetOf (pathOf source) = .ok (.named source false))
    (htarget : d.targetOf (pathOf target) = .ok (.named target false))
    (hfile : d.entry? source = some (.file content)) (hne : source ≠ target)
    (hnot : ¬ target <+: source) (hdir : d.entry? target ≠ some .directory) :
    d.rename (pathOf source) (pathOf target) =
      .ok ((d.erase source).put target (.file content)) := by
  have hobstacle : d.moveObstacle? source target (.file content) = none := by
    have hnone : (target.isPrefixOf source && target != source) = false := by
      simp [hnot]
    simp only [moveObstacle?, hnone, Bool.false_eq_true, if_false]
  simp [rename, hsource, htarget, move, hfile, hne, hobstacle]

theorem write_rename_of_dirs {front : Key} {s : Path.Segment}
    (hplain : Path.IsPlain (front ++ [s])) (htemp : Path.IsPlain (front ++ [s ++ mark tag]))
    (hfits : Fits (pathOf (front ++ [s ++ mark tag])))
    (hdirs : ∀ k, k <+: front → d.entry? k = some .directory)
    (hfree : d.entry? (front ++ [s ++ mark tag]) = none)
    (hdir : d.entry? (front ++ [s]) ≠ some .directory) (content : String) :
    ∃ d₁ d₂, d.write (pathOf (front ++ [s ++ mark tag])) content = .ok d₁ ∧
      d₁.rename (pathOf (front ++ [s ++ mark tag])) (pathOf (front ++ [s])) = .ok d₂ ∧
      ∀ k, d₂.entry? k = if k = front ++ [s] then some (.file content) else d.entry? k := by
  have hne : front ++ [s ++ mark tag] ≠ front ++ [s] := by
    rw [← tempPlace_concat]
    exact tempPlace_ne tag _
  have hwrite := write_eq_ok (targetOf_pathOf htemp hfits hdirs) hfits hfree content
  generalize hd₁ : d.put (front ++ [s ++ mark tag]) (.file content) = d₁ at hwrite
  have hentry : ∀ k, d₁.entry? k =
      if k = front ++ [s ++ mark tag] then some (.file content) else d.entry? k := by
    intro k
    rw [← hd₁, entry?_put d (by simp)]
  have hfile : d₁.entry? (front ++ [s ++ mark tag]) = some (.file content) := by
    rw [hentry, if_pos rfl]
  have hdirs₁ : ∀ k, k <+: front → d₁.entry? k = some .directory := by
    intro k hk
    have hkne : k ≠ front ++ [s ++ mark tag] := by
      rintro rfl
      simpa using hk.length_le
    rw [hentry, if_neg hkne, hdirs k hk]
  have hdir₁ : d₁.entry? (front ++ [s]) ≠ some .directory := by
    rwa [hentry, if_neg hne.symm]
  have hrename := rename_file_eq_ok (targetOf_pathOf htemp hfits hdirs₁)
    (targetOf_pathOf hplain (hfits.of_append htemp hplain) hdirs₁) hfile hne
    (fun hp => hne (hp.eq_of_length (by simp)).symm) hdir₁
  refine ⟨d₁, _, hwrite, hrename, fun k => ?_⟩
  rw [entry?_put _ (by simp), entry?_erase _ (by simp)]
  split
  · rfl
  · split
    · rename_i hk
      rw [hk, hfree]
    · rename_i hk
      rw [hentry, if_neg hk]

/-- Where a file can be written it appears with its content, in directories, and nothing else is
different. -/
theorem writeAtomic_of_writable (hplain : Path.IsPlain key) (htag : '/' ∉ tag.toList)
    (h : d.Writable tag key) (content : String) :
    ∃ d', writeAtomic tag (pathOf key) content d = (.ok (), d') ∧
      d'.entry? key = some (.file content) ∧
      (∀ k, k <+: key → k ≠ key → d'.entry? k = some .directory) ∧
      ∀ k, ¬ k <+: key → d'.entry? k = d.entry? k := by
  obtain ⟨front, s, rfl⟩ : ∃ front s, key = front ++ [s] :=
    (List.eq_nil_or_concat' key).resolve_left (ne_nil_of_entry?_ne h.noDirectory)
  have htemp := isPlain_tempPlace hplain htag
  have hfits := h.fits
  have hfree := h.isFree
  rw [tempPlace_concat] at htemp hfits hfree
  have hnot : ∀ t : Path.Segment, ¬ front ++ [t] <+: front := fun t hp => by
    simpa using hp.length_le
  obtain ⟨d₁, hmake, hgrows, hdirs⟩ :=
    makeDirs_of_noFile hplain.of_append (hfits.above htemp) fun k hk c =>
      h.noFile k (hk.trans (List.prefix_append _ _)) (fun heq => hnot s (heq ▸ hk)) c
  have hsame : ∀ t : Path.Segment, d₁.entry? (front ++ [t]) = d.entry? (front ++ [t]) := fun t =>
    hgrows.entry?_of_not_above (hnot t)
  obtain ⟨d₂, d₃, hwrite, hrename, hentry⟩ := write_rename_of_dirs hplain htemp hfits hdirs
    ((hsame _).trans hfree) (by rw [hsame]; exact h.noDirectory) content
  have htemporary : temporary tag (pathOf (front ++ [s])) = pathOf (front ++ [s ++ mark tag]) := by
    rw [temporary_pathOf, tempPlace_concat]
  refine ⟨d₃, ?_, ?_, fun k hk hkne => ?_, fun k hk => ?_⟩
  · rw [writeAtomic_apply, writeSteps_apply, directory_pathOf hplain, List.dropLast_concat, hmake,
      htemporary]
    dsimp only
    rw [hwrite]
    dsimp only
    rw [hrename]
  · rw [hentry, if_pos rfl]
  · rw [hentry, if_neg hkne, hdirs k ((List.prefix_concat_iff.1 hk).resolve_left hkne)]
  · have hkne : k ≠ front ++ [s] := by
      rintro rfl
      exact hk List.prefix_rfl
    have hk' : ¬ k <+: front := fun hp => hk (hp.trans (List.prefix_append _ _))
    rw [hentry, if_neg hkne, hgrows.entry?_of_not_above hk']

/-- On a tree, a write fails without a trace if the path of the temporary file fits. -/
theorem entry?_of_writeAtomic_error_of_fits {e : Fault} (hplain : Path.IsPlain key)
    (htag : '/' ∉ tag.toList) (htree : d.IsTree) (hfits : Fits (pathOf (tempPlace tag key)))
    (h : writeAtomic tag (pathOf key) content d = (.error e, d')) (hk : k ≠ tempPlace tag key) :
    d'.entry? k = d.entry? k := by
  obtain ⟨hother, -⟩ := entry?_of_writeAtomic_error hplain htag h
  rw [hother k hk]
  have hplain' := isPlain_dropLast hplain
  by_cases hfile : ∃ p, p <+: key.dropLast ∧ ∃ c, d.entry? p = some (.file c)
  · obtain ⟨p, hp, c, hc⟩ := hfile
    obtain ⟨e, hmake⟩ := makeDirs_of_file htree hplain' hp hc
    rw [hmake]
  · -- No file is in the way, so the directories above are there or the write would succeed.
    obtain ⟨hgrows, -⟩ := makeDirs_grows hplain' d
    rcases hgrows.entries k with heq | ⟨hk', hnone, -⟩
    · exact heq
    · exfalso
      have hnofile : ∀ p, p <+: key → p ≠ key → ∀ c, d.entry? p ≠ some (.file c) := by
        intro p hp hne c hc
        exact hfile ⟨p, prefix_dropLast hp hne, c, hc⟩
      have hmissing : ∀ s, d.entry? (key.dropLast ++ [s]) = none := by
        intro s
        by_contra hsome
        have hdir := htree.dirs_above (k := k) (Option.isSome_iff_ne_none.2 hsome)
          (hk'.trans (List.prefix_append _ _)) fun heq => by
            have := hk'.length_le
            simp [heq] at this
        rw [hnone] at hdir
        cases hdir
      have hwritable : d.Writable tag key := by
        refine ⟨hfits, hmissing _, hnofile, ?_⟩
        rcases List.eq_nil_or_concat' key with rfl | ⟨front, s, rfl⟩
        · rw [List.prefix_nil.1 hk'] at hnone
          cases hnone
        · have := hmissing s
          rw [List.dropLast_concat] at this
          simp [this]
      obtain ⟨d'', hok, -⟩ := writeAtomic_of_writable hplain htag hwritable content
      rw [hok] at h
      cases h

/-- What a failed write can leave different: directories above the file, though on a tree only
where the path of the temporary file does not fit, and a file of the temporary name, which may be
gone. -/
theorem writeAtomic_error_cases {e : Fault} (hplain : Path.IsPlain key) (htag : '/' ∉ tag.toList)
    (h : writeAtomic tag (pathOf key) content d = (.error e, d')) (k : Key) :
    d'.entry? k = d.entry? k ∨
      (k <+: key.dropLast ∧ d.entry? k = none ∧ d'.entry? k = some .directory ∧
        ¬ (d.IsTree ∧ Fits (pathOf (tempPlace tag key)))) ∨
      k = tempPlace tag key ∧ (∃ c, d.entry? k = some (.file c)) ∧ d'.entry? k = none := by
  obtain ⟨hother, htemp⟩ := entry?_of_writeAtomic_error hplain htag h
  by_cases hk : k = tempPlace tag key
  · subst hk
    exact htemp.imp_right fun hgone => .inr ⟨rfl, hgone⟩
  · by_cases hnice : d.IsTree ∧ Fits (pathOf (tempPlace tag key))
    · exact .inl (entry?_of_writeAtomic_error_of_fits hplain htag hnice.1 hnice.2 h hk)
    · obtain ⟨hgrows, -⟩ := makeDirs_grows (isPlain_dropLast hplain) d
      rw [hother k hk]
      rcases hgrows.entries k with heq | ⟨habove, hnone, hdir⟩
      · exact .inl heq
      · exact .inr (.inl ⟨habove, hnone, hdir, hnice⟩)

theorem targetOf_of_tooLong {front : Key} {s : Path.Segment} (d : Disk)
    (hplain : Path.IsPlain (front ++ [s])) (hlong : isTooLong s = true) :
    ∃ cause, d.targetOf (pathOf (front ++ [s])) = .error cause := by
  unfold targetOf route
  split_ifs
  · exact ⟨_, rfl⟩
  · exact ⟨_, rfl⟩
  · dsimp only
    rw [absolute_pathOf, toList_pathOf, Path.pieces_ofSegments hplain (by simp),
      target_concat d hplain]
    cases d.follow [] front with
    | error cause => exact ⟨cause, rfl⟩
    | ok directory =>
      dsimp only
      cases hstep : d.step directory s with
      | error cause => exact ⟨cause, rfl⟩
      | ok key =>
        obtain ⟨-, hshort, -⟩ := step_eq_ok_iff.1 hstep
        rw [hlong] at hshort
        cases hshort

/-- Directories above the file do stay after a failed write where its temporary name is too long. -/
theorem writeAtomic_of_tooLong {front : Key} {s : Path.Segment}
    (hplain : Path.IsPlain (front ++ [s])) (htag : '/' ∉ tag.toList) (hfits : Fits (pathOf front))
    (hfree : ∀ k, k <+: front → ∀ c, d.entry? k ≠ some (.file c))
    (hlong : isTooLong (s ++ mark tag) = true) (content : String) :
    ∃ e d', writeAtomic tag (pathOf (front ++ [s])) content d = (.error e, d') ∧
      ∀ k, k <+: front → d'.entry? k = some .directory := by
  obtain ⟨d₁, hmake, -, hdirs⟩ := makeDirs_of_noFile hplain.of_append hfits hfree
  have htemp : Path.IsPlain (front ++ [s ++ mark tag]) := by
    rw [← tempPlace_concat]
    exact isPlain_tempPlace hplain htag
  obtain ⟨cause, htarget⟩ := targetOf_of_tooLong d₁ htemp hlong
  rw [← tempPlace_concat, ← temporary_pathOf] at htarget
  obtain ⟨e, hwrite⟩ : ∃ e,
      d₁.write (temporary tag (pathOf (front ++ [s]))) content = .error e := by
    unfold write update
    split_ifs
    · exact ⟨_, rfl⟩
    · rw [htarget]
      exact ⟨_, rfl⟩
  have hremoved : withoutTemp tag (pathOf (front ++ [s])) d₁ = d₁ := by
    simp [withoutTemp, unlink, htarget]
  refine ⟨e, d₁, ?_, hdirs⟩
  rw [writeAtomic_apply, writeSteps_apply, directory_pathOf hplain, List.dropLast_concat, hmake]
  dsimp only
  rw [hwrite]
  dsimp only
  rw [hremoved]

end Disk
end Marginalia
