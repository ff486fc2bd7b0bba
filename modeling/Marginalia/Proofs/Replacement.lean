import Marginalia.Proofs.AtomicWrite
import Marginalia.Proofs.Delivery

/-!
# A file is replaced or nothing is touched

Two shapes of a disk keep a file from being written at a place: a file above the
place, and a directory at it. The one stops the directories from being made, the
other stops the renaming when the temporary file is already there. Either way
the temporary file is taken away again and the disk is the one that it was.
Otherwise the file is there with its content, below directories, and nothing
else is different.
-/

namespace Marginalia
namespace Disk

variable {d d' : Disk} {key k : Key} {tag content : String}

theorem erase_put_of_none (hkey : key ≠ []) (h : d.entry? key = none) (e : Entry) :
    (d.put key e).erase key = d := by
  have hother : ∀ x ∈ d.entries, (x.1 == key) = false := by
    intro x hx
    rw [entry?_of_ne_nil d hkey, List.lookup_eq_none_iff] at h
    have hne := h x hx
    rw [bne_iff_ne] at hne
    exact beq_false_of_ne hne.symm
  have hnew : (d.entries.any fun x => x.1 == key) = false := by
    rw [List.any_eq_false]
    intro x hx
    simp [hother x hx]
  have hkept : (d.entries.filter fun x => !(x.1 == key)) = d.entries := by
    rw [List.filter_eq_self]
    intro x hx
    simp [hother x hx]
  simp [put, erase, hnew, hkept]

/-- The shape of a disk keeps a place from becoming a file: something above it is a file, or it is
a directory itself. -/
def Obstructs (d : Disk) (key : Key) : Prop :=
  (∃ k, k <+: key ∧ k ≠ key ∧ ∃ c, d.entry? k = some (.file c)) ∨ d.entry? key = some .directory

theorem withoutTemp_of_none {target : String}
    (h : d.entry? (d.placeOf (temporary tag target)) = none) : withoutTemp tag target d = d := by
  obtain ⟨-, heq | ⟨⟨c, hfile⟩, -⟩⟩ := withoutTemp_entry? tag target d
  · exact heq
  · rw [h] at hfile
    cases hfile

theorem rename_of_directory {source target : String} (hwrite : d.write source content = .ok d')
    (hdir : d'.entry? (d'.placeOf target) = some .directory) :
    ∃ e, d'.rename source target = .error e := by
  cases hrename : d'.rename source target with
  | error e => exact ⟨e, rfl⟩
  | ok d'' =>
    obtain ⟨-, -, -, hsource⟩ := lookAt_update hwrite
    have hne : d'.placeOf source ≠ d'.placeOf target := by
      intro heq
      have hfile := (lookAt_eq_some_iff.1 hsource).2
      rw [heq, hdir] at hfile
      cases hfile
    obtain ⟨hdiffer, -, htarget⟩ := lookAt_rename_file hsource hne hrename
    have hfile := (lookAt_eq_some_iff.1 htarget).2
    rw [hdiffer.placeOf_eq, (hdiffer.directories _).2 hdir] at hfile
    cases hfile

section

variable (hplain : Path.IsPlain key) (htree : d.IsTree)

include hplain htree

theorem makeDirs_of_obstructs (h : d.Obstructs key) :
    (d.makeDirs (pathOf key.dropLast)).2 = d := by
  rcases h with ⟨k, hk, hne, c, hfile⟩ | hdir
  · obtain ⟨e, hmake⟩ :=
      makeDirs_of_file htree (isPlain_dropLast hplain) (prefix_dropLast hk hne) hfile
    rw [hmake]
  · apply makeDirs_of_noGap (isPlain_dropLast hplain)
    intro p hp hgap
    have hpdir : d.entry? p = some .directory := by
      by_cases heq : p = key
      · rwa [heq]
      · exact htree.dirs_above (by simp [hdir]) (hp.trans (List.dropLast_prefix key)) heq
    rw [hgap.missing] at hpdir
    cases hpdir

/-- One of the steps fails: with a file above the place the first one, and with a directory at the
place the last one, if none before it did. -/
theorem writeSteps_of_obstructs (h : d.Obstructs key) (tag content : String) :
    ∃ e d₁, writeSteps tag (pathOf key) content d = (.error e, d₁) := by
  have hsame := makeDirs_of_obstructs hplain htree h
  rw [writeSteps_apply, directory_pathOf hplain]
  rcases hmake : d.makeDirs (pathOf key.dropLast) with ⟨e | _, d₁⟩ <;> rw [hmake] at hsame
  · exact ⟨e, d₁, rfl⟩
  · obtain rfl : d₁ = d := hsame
    have hdir : d₁.entry? key = some .directory := by
      rcases h with ⟨k, hk, hne, c, hfile⟩ | hdir
      · rw [makeDirs_eq_ok (isPlain_dropLast hplain) hmake k (prefix_dropLast hk hne)] at hfile
        cases hfile
      · exact hdir
    dsimp only
    cases hwrite : d₁.write (temporary tag (pathOf key)) content with
    | error e => exact ⟨e, d₁, rfl⟩
    | ok d₂ =>
      have hdir₂ : d₂.entry? (d₂.placeOf (pathOf key)) = some .directory := by
        obtain ⟨hdiffer, -⟩ := lookAt_update hwrite
        rw [placeOf_pathOf d₂ hplain, hdiffer.directories]
        exact hdir
      obtain ⟨e, hrename⟩ := rename_of_directory hwrite hdir₂
      refine ⟨e, d₂, ?_⟩
      dsimp only
      rw [hrename]

theorem writeAtomic_of_obstructs (htag : '/' ∉ tag.toList)
    (hfree : d.entry? (tempPlace tag key) = none) (h : d.Obstructs key) (content : String) :
    ∃ e d₁, writeSteps tag (pathOf key) content d = (.error e, d₁) ∧
      writeAtomic tag (pathOf key) content d = (.error e, d) := by
  have hplace : d.placeOf (temporary tag (pathOf key)) = tempPlace tag key := by
    rw [temporary_pathOf, placeOf_pathOf d (isPlain_tempPlace hplain htag)]
  obtain ⟨e, d₁, hsteps⟩ := writeSteps_of_obstructs hplain htree h tag content
  have hleft := writeSteps_eq_error hsteps
  rw [directory_pathOf hplain, makeDirs_of_obstructs hplain htree h] at hleft
  have hrestored : withoutTemp tag (pathOf key) d₁ = d := by
    rcases hleft with rfl | hwrite
    · apply withoutTemp_of_none
      rw [hplace, hfree]
    · rw [withoutTemp_write hwrite, hplace]
      exact erase_put_of_none (tempPlace_ne_nil tag key) hfree _
  refine ⟨e, d₁, hsteps, ?_⟩
  rw [writeAtomic_apply, hsteps]
  dsimp only
  rw [hrestored]

end

theorem isTooLong_of_follow {place : Key} {r : Route} (h : d.follow place r = .ok key) :
    ∀ s ∈ r, isTooLong s = false := by
  induction r generalizing place with
  | nil => simp
  | cons s r ih =>
    rw [follow] at h
    split at h
    · rename_i next hstep
      exact List.forall_mem_cons.2 ⟨(step_eq_ok_iff.1 hstep).2.1, ih h⟩
    · cases h

theorem Fits.of_reaches (h : d.Reaches (pathOf key)) : Fits (pathOf key) := by
  obtain ⟨r, last, hroute, hfollow⟩ := h
  have hnames := isTooLong_of_follow hfollow
  rw [eq_pieces_of_route hroute, absolute_pathOf] at hnames
  unfold route at hroute
  split at hroute
  · cases hroute
  · rename_i hlegal
    split at hroute
    · cases hroute
    · rename_i hshort
      rw [absolute_pathOf] at hshort
      rw [isEmpty_pathOf, Bool.false_or] at hlegal
      exact ⟨by simpa using hlegal, Nat.not_le.1 hshort, hnames⟩

theorem fits_of_writeAtomic {u : Unit}
    (h : writeAtomic tag (pathOf key) content d = (.ok u, d')) :
    Fits (pathOf (tempPlace tag key)) := by
  rw [writeAtomic_apply, writeSteps_apply] at h
  rcases hmake : d.makeDirs (Path.directory (pathOf key)) with ⟨_ | _, d₁⟩ <;> rw [hmake] at h
  · cases h
  · dsimp only at h
    cases hwrite : d₁.write (temporary tag (pathOf key)) content with
    | error e =>
      rw [hwrite] at h
      cases h
    | ok d₂ =>
      have htarget := (update_eq_ok hwrite).1
      rw [temporary_pathOf] at htarget
      exact Fits.of_reaches ((targetOf_eq_named htarget).2 rfl)

/-- One disk has a file at a place, below directories some of which may be new, and is the same as
another one apart from that. -/
structure IsReplaced (key : Key) (content : String) (d d' : Disk) : Prop where
  file : d'.entry? key = some (.file content)
  above : ∀ k, k <+: key → k ≠ key →
    (d.entry? k = none ∨ d.entry? k = some .directory) ∧ d'.entry? k = some .directory
  elsewhere : ∀ k, ¬ k <+: key → d'.entry? k = d.entry? k

theorem writable_iff_not_obstructs : d.Writable tag key ↔
    Fits (pathOf (tempPlace tag key)) ∧ d.entry? (tempPlace tag key) = none ∧
      ¬ d.Obstructs key := by
  constructor
  · rintro ⟨hfits, hfree, hfile, hdir⟩
    refine ⟨hfits, hfree, ?_⟩
    rintro (⟨k, hk, hne, c, hc⟩ | hdir')
    · exact hfile k hk hne c hc
    · exact hdir hdir'
  · rintro ⟨hfits, hfree, hnot⟩
    refine ⟨hfits, hfree, fun k hk hne c hc => ?_, fun hdir => ?_⟩
    · exact hnot (.inl ⟨k, hk, hne, c, hc⟩)
    · exact hnot (.inr hdir)

/-- A file can be written where the path fits and the shape of the disk allows it. -/
theorem exists_isReplaced (hplain : Path.IsPlain key) (htag : '/' ∉ tag.toList)
    (hfits : Fits (pathOf (tempPlace tag key))) (hfree : d.entry? (tempPlace tag key) = none)
    (h : ¬ d.Obstructs key) (content : String) :
    ∃ d', writeAtomic tag (pathOf key) content d = (.ok (), d') ∧ IsReplaced key content d d' := by
  obtain ⟨d', hwrite, hfile, habove, helse⟩ := writeAtomic_of_writable hplain htag
    (writable_iff_not_obstructs.2 ⟨hfits, hfree, h⟩) content
  refine ⟨d', hwrite, hfile, fun k hk hne => ⟨?_, habove k hk hne⟩, helse⟩
  rcases he : d.entry? k with _ | c | _
  · exact .inl rfl
  · exact absurd (.inl ⟨k, hk, hne, c, he⟩) h
  · exact .inr rfl

/-- A text that ends in a newline, made by adding one if there is none. -/
structure IsEnded (content text : String) : Prop where
  newline : text.toList.getLast? = some '\n'
  same : content.toList.getLast? = some '\n' → text = content
  added : content.toList.getLast? ≠ some '\n' → text = content ++ "\n"

theorem isEnded_endingInNewline (content : String) : IsEnded content (endingInNewline content) := by
  have hends : Text.endsWith "\n" content = true ↔ content.toList.getLast? = some '\n' := by
    rw [Text.endsWith, List.isSuffixOf_iff_suffix, List.getLast?_eq_some_iff]
    exact exists_congr fun front => eq_comm
  unfold endingInNewline
  by_cases h : Text.endsWith "\n" content = true
  · rw [if_pos h]
    exact ⟨hends.1 h, fun _ => rfl, fun hno => absurd (hends.1 h) hno⟩
  · rw [if_neg h]
    refine ⟨?_, fun hyes => absurd (hends.2 hyes) h, fun _ => rfl⟩
    rw [String.toList_append]
    exact List.getLast?_concat

/-- What a write in one step comes to. It fails where the shape of the disk is in the way, with the
fault of the step that failed and without a trace; where it succeeds, the file is replaced; and it
succeeds where nothing is in the way and the path fits. -/
structure ReplacesOrRestores (tag : String) (key : Key) (content : String) (d : Disk) : Prop where
  restores : d.Obstructs key → ∃ e d₁, writeSteps tag (pathOf key) content d = (.error e, d₁) ∧
    writeAtomic tag (pathOf key) content d = (.error e, d)
  replaces : ∀ d', writeAtomic tag (pathOf key) content d = (.ok (), d') →
    IsReplaced key content d d'
  succeeds : Fits (pathOf (tempPlace tag key)) → ¬ d.Obstructs key →
    (writeAtomic tag (pathOf key) content d).1 = .ok ()

theorem replacesOrRestores (hplain : Path.IsPlain key) (htag : '/' ∉ tag.toList) (htree : d.IsTree)
    (hfree : d.entry? (tempPlace tag key) = none) (content : String) :
    ReplacesOrRestores tag key content d where
  restores h := writeAtomic_of_obstructs hplain htree htag hfree h content
  replaces d' hwrite := by
    have hnot : ¬ d.Obstructs key := by
      intro h
      obtain ⟨e, d₁, -, hfail⟩ := writeAtomic_of_obstructs hplain htree htag hfree h content
      rw [hwrite] at hfail
      cases hfail
    obtain ⟨d'', hwrite', hreplaced⟩ :=
      exists_isReplaced hplain htag (fits_of_writeAtomic hwrite) hfree hnot content
    rw [hwrite] at hwrite'
    cases hwrite'
    exact hreplaced
  succeeds hfits hnot := by
    obtain ⟨d', hwrite, -⟩ := exists_isReplaced hplain htag hfits hfree hnot content
    rw [hwrite]

end Disk

namespace Session

open Disk

/-- A write in one step replaces its file or leaves no trace. Output files are written that way,
with a newline at their end, and every fault becomes the failure to write the file. -/
theorem write_replaces_or_restores {host : Host} {s : State} {key : Key}
    (hplain : Path.IsPlain key) (htag : '/' ∉ host.tag.toList) (htree : s.disk.IsTree)
    (hfree : s.disk.entry? (tempPlace host.tag key) = none) (content : String) :
    ReplacesOrRestores host.tag key content s.disk ∧
    ∃ text s', IsEnded content text ∧ ReplacesOrRestores host.tag key text s.disk ∧
      runOn host s (writeOutput (pathOf key) content) =
        ((Disk.writeAtomic host.tag (pathOf key) text s.disk).1.mapError fun e =>
          .failure (.writeFailed (pathOf key) e.kind e.message), s') ∧
      s'.disk = (Disk.writeAtomic host.tag (pathOf key) text s.disk).2 := by
  refine ⟨replacesOrRestores hplain htag htree hfree content, endingInNewline content, ?_⟩
  rcases hwrite : Disk.writeAtomic host.tag (pathOf key) (endingInNewline content) s.disk with
    ⟨r, d'⟩
  obtain ⟨s', hrun, hlasting⟩ := runOn_writeOutput host s hwrite
  exact ⟨s', isEnded_endingInNewline content, replacesOrRestores hplain htag htree hfree _, hrun,
    congrArg Prod.fst hlasting⟩

/-- A directory in the place of an output file: it stays, and nothing is left beside it. In a
directory that is still missing, the file is written. -/
theorem write_replaces_or_restores_directory :
    let host : Host :=
      { place := ⟨"/work", "/home/user"⟩, environment := [], stamp := "", tag := "0.1"
        colour := false, packageDir := "/pkg", executable := "/usr/bin/node"
        library := ⟨.ok (), fun _ => .ok (), fun _ => .ok none⟩ }
    let s : State := .fresh ((Disk.bare "/work").add "/work/out/" "")
    (∃ f s', runOn host s (writeOutput (host.place.resolve "out") "x") = (.error (.failure f), s') ∧
        f.code = .writeFailed ∧ s'.disk = s.disk) ∧
      ∃ s', runOn host s (writeOutput (host.place.resolve "new/out") "x") = (.ok (), s') ∧
        s'.disk.entry? (host.place.keyOf "new/out") = some (.file "x\n") := by
  intro host s
  have htag : '/' ∉ host.tag.toList := by decide
  have htree : s.disk.IsTree := by decide +kernel
  constructor
  · have hfree : s.disk.entry? (tempPlace host.tag (host.place.keyOf "out")) = none := by
      decide +kernel
    have hdir : s.disk.Obstructs (host.place.keyOf "out") := .inr (by decide +kernel)
    clear_value host s
    obtain ⟨-, text, s', -, hwrite, hrun, hdisk⟩ :=
      write_replaces_or_restores (host.place.isPlain_keyOf "out") htag htree hfree "x"
    obtain ⟨e, -, -, hfail⟩ := hwrite.restores hdir
    rw [hfail] at hrun hdisk
    exact ⟨_, s', hrun, rfl, hdisk⟩
  · have hwritable : s.disk.Writable host.tag (host.place.keyOf "new/out") := by decide +kernel
    clear_value host s
    obtain ⟨hfits, hfree, hnot⟩ := writable_iff_not_obstructs.1 hwritable
    obtain ⟨-, text, s', hended, hwrite, hrun, hdisk⟩ :=
      write_replaces_or_restores (host.place.isPlain_keyOf "new/out") htag htree hfree "x"
    obtain rfl : text = "x\n" := hended.added (by decide)
    have hok := hwrite.succeeds hfits hnot
    rcases hpair : Disk.writeAtomic host.tag (pathOf (host.place.keyOf "new/out")) "x\n" s.disk with
      ⟨r, d'⟩
    rw [hpair] at hok hrun hdisk
    obtain rfl : r = .ok () := hok
    refine ⟨s', hrun, ?_⟩
    rw [hdisk]
    exact (hwrite.replaces d' hpair).file

end Session
end Marginalia
