import Marginalia.Proofs.Rotation

/-!
# The size limit of log files

Before an entry is added the active file is moved on if it is full, so an entry
goes to a file that is missing or below the limit, and no file outgrows the
limit by more than its last entry. This takes at least two files: a single one
has no index to move to, stays where it is, and grows with every entry.
-/

namespace Marginalia
namespace Disk

variable {d d' : Disk} {path : String} {source target key k : Key} {slash : Bool} {e : Entry}

theorem follow_blanks {slashes : List Path.Segment} (h : ∀ s ∈ slashes, s = [])
    (hdir : d.entry? key = some .directory) : d.follow key slashes = .ok key := by
  induction slashes with
  | nil => rfl
  | cons s slashes ih =>
    obtain rfl := h s List.mem_cons_self
    have hstep : d.step key [] = .ok key :=
      step_eq_ok_iff.2 ⟨hdir, by decide, (List.reverse_reverse key).symm⟩
    rw [follow, hstep]
    exact ih fun t ht => h t (List.mem_cons_of_mem _ ht)

theorem reaches_of_targetOf (h : d.targetOf path = .ok (.named key slash))
    (hdir : slash = true → d.entry? key = some .directory) : d.Reaches path := by
  cases slash with
  | false => exact (targetOf_eq_named h).2 rfl
  | true =>
    unfold targetOf at h
    split at h
    · rename_i r hr
      obtain ⟨front, slashes, hblank, hcut, hfollow, -⟩ := target_named_cases h
      refine ⟨r, key, hr, ?_⟩
      rw [hcut, follow_append, hfollow]
      exact follow_blanks hblank (hdir rfl)
    · cases h

def movedKey (source target key : Key) : Key :=
  if source.isPrefixOf key then target ++ key.drop source.length else key

theorem lookup_map_key {f : Key → Key} {entries : List (Key × Entry)}
    (h : (entries.map fun x => (f x.1, x.2)).lookup k = some e) :
    ∃ origin, f origin = k ∧ entries.lookup origin = some e := by
  induction entries with
  | nil => cases h
  | cons x entries ih =>
    rw [List.map_cons, List.lookup_cons] at h
    split at h
    · rename_i hk
      refine ⟨x.1, (beq_iff_eq.1 hk).symm, ?_⟩
      rw [List.lookup_cons, beq_self_eq_true]
      exact h
    · rename_i hk
      obtain ⟨origin, rfl, horigin⟩ := ih h
      refine ⟨origin, rfl, ?_⟩
      have hne : origin ≠ x.1 := by
        rintro rfl
        simp at hk
      rwa [List.lookup_cons, beq_false_of_ne hne]

theorem entry?_of_moveAll (hsource : source ≠ []) (hk : k ≠ [])
    (h : Disk.entry? (d.moveAll source target) k = some e) :
    ∃ origin, movedKey source target origin = k ∧ d.entry? origin = some e := by
  rw [entry?_of_ne_nil _ hk] at h
  have hmap : (d.moveAll source target).entries =
      d.entries.map fun x => (movedKey source target x.1, x.2) := by
    refine List.map_congr_left fun x _ => ?_
    unfold movedKey
    split <;> rfl
  rw [hmap] at h
  obtain ⟨origin, horigin, hentry⟩ := lookup_map_key h
  refine ⟨origin, horigin, ?_⟩
  rw [entry?_of_ne_nil _ ?_, hentry]
  rintro rfl
  have hroot : movedKey source target [] = [] :=
    if_neg fun hprefix => hsource (List.prefix_nil.1 (List.isPrefixOf_iff_prefix.1 hprefix))
  exact hk (horigin.symm.trans hroot)

theorem lookAt_source_of_rename {source target : String} (hfree : d.lookAt target = none)
    (h : d.rename source target = .ok d') : d'.lookAt source = none := by
  obtain ⟨slash, slash', hs, ht, hmove⟩ := rename_eq_ok h
  rcases move_cases hmove with ⟨hsame, hdir, rfl⟩ | ⟨hne, htarget, content, hfile, rfl⟩ |
    ⟨hbelow, habove, rfl⟩
  · -- One place under two names: the target is free, so nothing is there.
    refine lookAt_eq_none_of_entry? (Option.eq_none_iff_forall_ne_some.2 fun e he => ?_)
    have hreach : d'.Reaches target :=
      reaches_of_targetOf ht fun hslash => hsame ▸ hdir (by simp [hslash])
    rw [lookAt_eq_some_iff.2 ⟨hreach, hsame ▸ he⟩] at hfree
    cases hfree
  · have hfile' : d.entry? (d.placeOf source) ≠ some .directory := by simp [hfile]
    refine lookAt_eq_none_of_entry? ?_
    change Disk.entry? _ (d.placeOf source) = none
    rw [entry?_put _ (ne_nil_of_entry?_ne htarget), if_neg hne,
      entry?_erase d (ne_nil_of_entry?_ne hfile'), if_pos rfl]
  · have hsource : d.placeOf source ≠ [] := fun hnil => hbelow (hnil ▸ List.nil_prefix)
    refine lookAt_eq_none_of_entry? (Option.eq_none_iff_forall_ne_some.2 fun e he => ?_)
    change Disk.entry? _ (d.placeOf source) = some e at he
    obtain ⟨origin, horigin, -⟩ := entry?_of_moveAll hsource hsource he
    unfold movedKey at horigin
    split at horigin
    · exact habove (horigin ▸ List.prefix_append _ _)
    · rename_i hno
      exact hno (by simp [horigin])

/-- The contents of the files on a disk. -/
def contents (d : Disk) : Set String := {content | ∃ key, d.entry? key = some (.file content)}

theorem ne_nil_of_file {content : String} (h : d.entry? key = some (.file content)) : key ≠ [] :=
  ne_nil_of_entry?_ne (d := d) (by simp [h])

theorem contents_erase_subset (hkey : key ≠ []) : (d.erase key).contents ⊆ d.contents := by
  rintro content ⟨k, hk⟩
  rw [entry?_erase d hkey] at hk
  split at hk
  · cases hk
  · exact ⟨k, hk⟩

theorem contents_put_file (hkey : key ≠ []) (content : String) :
    (d.put key (.file content)).contents ⊆ insert content d.contents := by
  rintro other ⟨k, hk⟩
  rw [entry?_put d hkey] at hk
  split at hk
  · cases hk
    exact Set.mem_insert _ _
  · exact Set.mem_insert_of_mem _ ⟨k, hk⟩

theorem contents_moveAll_subset (hsource : source ≠ []) :
    (d.moveAll source target).contents ⊆ d.contents := by
  rintro content ⟨k, hk⟩
  obtain ⟨origin, -, horigin⟩ := entry?_of_moveAll hsource (ne_nil_of_file hk) hk
  exact ⟨origin, horigin⟩

theorem contents_discard_subset (h : d.discard path = .ok d') : d'.contents ⊆ d.contents := by
  unfold discard at h
  split at h
  · rename_i key content hlocate
    obtain ⟨-, -, he⟩ := locate_eq_ok_iff.1 hlocate
    cases h
    exact contents_erase_subset (ne_nil_of_file he)
  · cases h
  · cases h
    exact subset_rfl
  · cases h

theorem contents_rename_subset {source target : String} (h : d.rename source target = .ok d') :
    d'.contents ⊆ d.contents := by
  obtain ⟨slash, slash', -, -, hmove⟩ := rename_eq_ok h
  rcases move_cases hmove with ⟨-, -, rfl⟩ | ⟨-, htarget, content, hfile, rfl⟩ |
    ⟨hbelow, habove, rfl⟩
  · exact subset_rfl
  · have herase := contents_erase_subset (d := d) (ne_nil_of_file hfile)
    have hput := contents_put_file (d := d.erase (d.placeOf source))
      (ne_nil_of_entry?_ne htarget) content
    exact hput.trans (Set.insert_subset ⟨_, hfile⟩ herase)
  · have hsource : d.placeOf source ≠ [] := fun hnil => hbelow (hnil ▸ List.nil_prefix)
    have htarget : d.placeOf target ≠ [] := fun hnil => habove (hnil ▸ List.nil_prefix)
    exact (contents_moveAll_subset hsource).trans (contents_erase_subset htarget)

theorem contents_append_subset {content : String} (h : d.append path content = .ok d') :
    ∃ old : Option String, d.lookAt path = old.map .file ∧
      d'.contents ⊆ insert (old.getD "" ++ content) d.contents := by
  obtain ⟨htarget, old, hentry, rfl⟩ := update_eq_ok h
  have hfile : d.entry? (d.placeOf path) ≠ some .directory := by cases old <;> simp [hentry]
  refine ⟨old, ?_, contents_put_file (ne_nil_of_entry?_ne hfile) _⟩
  ext e
  rw [lookAt_eq_some_iff, hentry]
  exact and_iff_right ((targetOf_eq_named htarget).2 rfl)

theorem size?_eq (d : Disk) (path : String) :
    d.size? path = (d.lookAt path).map fun e =>
      match e with
      | .file content => content.utf8ByteSize
      | .directory => directorySize := by
  unfold size? lookAt
  rw [Option.map_map]
  rfl

end Disk

namespace Number

theorem int_zero_lt {x : Number} (h : .int 1 ≤ x) : .int 0 < x := by
  rcases lt_trichotomy (.int 0) x with hlt | rfl | hgt
  · exact hlt
  · simp at h
  · exact absurd (lt_trans hgt (by simp : Number.int 0 < .int 1)) h

end Number

namespace Log

namespace Rotation

open Number (twoTo)

variable {r : Rotation} {d d' : Disk} {m i k : Nat} {entry : String}

/-- The active file is missing, or smaller than the limit. -/
def HasRoom (r : Rotation) (d : Disk) : Prop :=
  ∀ size, d.size? r.activePath = some size → .int size < r.maxSize

theorem hasRoom_iff : r.HasRoom d ↔ r.isFull d = false := by
  unfold HasRoom isFull
  cases d.size? r.activePath with
  | none => simp
  | some size => simp [Number.le_iff_not_lt]

theorem hasRoom_of_found_none (h : r.found d 0 = none) : r.HasRoom d := by
  intro size hsize
  have hnone : d.lookAt r.activePath = none := h
  rw [Disk.size?_eq, hnone] at hsize
  cases hsize

theorem contentAt_of_file {old : Option String} (hold : r.found d i = old.map .file) :
    r.contentAt d i = old.getD "" := by
  rw [contentAt_eq, hold]
  cases old <;> rfl

theorem hasRoom_file {old : Option String} (hold : r.found d 0 = old.map .file)
    (hlimit : .int 1 ≤ r.maxSize) :
    r.HasRoom d ↔ .int (old.getD "").utf8ByteSize < r.maxSize := by
  cases old with
  | none => exact iff_of_true (hasRoom_of_found_none hold) (Number.int_zero_lt hlimit)
  | some content =>
    have hfound : d.lookAt r.activePath = some (.file content) := hold
    unfold HasRoom
    rw [Disk.size?_eq, hfound]
    simp

theorem found_of_advance_none (hi : i + 1 ≤ twoTo 53) (hfree : r.found d (i + 1) = none)
    (h : r.advance (.int i) d = (.ok (), d')) : r.found d' i = none := by
  rcases advance_cases hi h with ⟨hnone, rfl⟩ | ⟨-, hrename⟩
  · exact hnone
  · exact Disk.lookAt_source_of_rename hfree hrename

/-- Moving the files below a free index on, the highest first, leaves no active file. -/
theorem found_of_countdown_none (hk : k ≤ twoTo 53) (hfree : r.found d k = none)
    (h : (countdown (.int (k - 1 : Nat)) k).forM r.advance d = (.ok (), d')) :
    r.found d' 0 = none := by
  induction k generalizing d with
  | zero =>
    cases h
    exact hfree
  | succ k ih =>
    rw [Nat.add_sub_cancel, countdown_int (by omega)] at h
    obtain ⟨⟨⟩, d₁, hadvance, hrest⟩ := Disk.Action.bind_eq_ok h
    exact ih (by omega) (found_of_advance_none hk hfree hadvance) hrest

theorem hasRoom_of_rotate (hmax : r.maxFiles = .int (m + 1 : Nat)) (hm : m ≤ twoTo 53)
    (hpos : 0 < m) (h : r.rotate d = (.ok (), d')) : r.HasRoom d' := by
  rcases rotate_cases hmax hm h with ⟨hfull, rfl⟩ | ⟨d₁, hdiscard, hmove⟩
  · exact hasRoom_iff.2 hfull
  · rw [← logPath_of_pos hpos] at hdiscard
    exact hasRoom_of_found_none
      (found_of_countdown_none hm (Disk.lookAt_discard hdiscard).2 hmove)

theorem contents_countdown_subset (hk : k ≤ twoTo 53)
    (h : (countdown (.int (k - 1 : Nat)) k).forM r.advance d = (.ok (), d')) :
    d'.contents ⊆ d.contents := by
  induction k generalizing d with
  | zero =>
    cases h
    exact subset_rfl
  | succ k ih =>
    rw [Nat.add_sub_cancel, countdown_int (by omega)] at h
    obtain ⟨⟨⟩, d₁, hadvance, hrest⟩ := Disk.Action.bind_eq_ok h
    have hstep : d₁.contents ⊆ d.contents := by
      rcases advance_cases hk hadvance with ⟨-, rfl⟩ | ⟨-, hrename⟩
      · exact subset_rfl
      · exact Disk.contents_rename_subset hrename
    exact (ih (by omega) hrest).trans hstep

theorem contents_rotate_subset (hmax : r.maxFiles = .int (m + 1 : Nat)) (hm : m ≤ twoTo 53)
    (h : r.rotate d = (.ok (), d')) : d'.contents ⊆ d.contents := by
  rcases rotate_cases hmax hm h with ⟨-, rfl⟩ | ⟨d₁, hdiscard, hmove⟩
  · exact subset_rfl
  · exact (contents_countdown_subset hm hmove).trans (Disk.contents_discard_subset hdiscard)

theorem append_eq_ok (h : r.append entry d = (.ok (), d')) :
    ∃ d₁, r.rotate d = (.ok (), d₁) ∧ d₁.append r.activePath (entry ++ "\n") = .ok d' := by
  obtain ⟨⟨⟩, d₁, hrotate, happend⟩ := Disk.Action.bind_eq_ok h
  exact ⟨d₁, hrotate, Disk.Action.of_eq_ok happend⟩

/-- An entry of several files finds room. -/
theorem hasRoom_of_append (hmax : r.maxFiles = .int (m + 1 : Nat)) (hm : m ≤ twoTo 53)
    (hpos : 0 < m) (h : r.append entry d = (.ok (), d')) : r.HasRoom (r.rotate d).2 := by
  obtain ⟨d₁, hrotate, -⟩ := append_eq_ok h
  rw [hrotate]
  exact hasRoom_of_rotate hmax hm hpos hrotate

/-- A content that was below the limit before its last entry. -/
def IsWithinLimit (r : Rotation) (entry content : String) : Prop :=
  ∃ front, content = front ++ (entry ++ "\n") ∧ .int front.utf8ByteSize < r.maxSize

theorem contents_append (hmax : r.maxFiles = .int (m + 1 : Nat)) (hm : m ≤ twoTo 53)
    (hlimit : .int 1 ≤ r.maxSize) (h : r.append entry d = (.ok (), d'))
    (hroom : r.HasRoom (r.rotate d).2) :
    d'.contents ⊆ d.contents ∪ {content | r.IsWithinLimit entry content} := by
  obtain ⟨d₁, hrotate, happend⟩ := append_eq_ok h
  rw [hrotate] at hroom
  obtain ⟨old, hold, hcontents⟩ := Disk.contents_append_subset happend
  have hwithin : r.IsWithinLimit entry (old.getD "" ++ (entry ++ "\n")) :=
    ⟨_, rfl, (hasRoom_file hold hlimit).1 hroom⟩
  intro content hcontent
  rcases hcontents hcontent with rfl | hcontent
  · exact .inr hwithin
  · exact .inl (contents_rotate_subset hmax hm hrotate hcontent)

theorem found_append_single (hmax : r.maxFiles = .int 1) (hname : '/' ∉ r.fileName.toList)
    (h : r.append entry d = (.ok (), d')) : ∃ old : Option String,
      r.found d 0 = old.map .file ∧ r.found (r.rotate d).2 0 = old.map .file ∧
      r.found d' 0 = some (.file (old.getD "" ++ (entry ++ "\n"))) := by
  obtain ⟨d₁, hrotate, happend⟩ := append_eq_ok h
  obtain ⟨-, old, hold, hnew⟩ := Disk.lookAt_update happend
  rw [hrotate]
  exact ⟨old, (found_of_rotate_single hmax hname hrotate 0).symm.trans hold, hold, hnew⟩

theorem contentAt_append_single (hmax : r.maxFiles = .int 1) (hname : '/' ∉ r.fileName.toList)
    (h : r.append entry d = (.ok (), d')) :
    r.contentAt d' 0 = r.contentAt d 0 ++ (entry ++ "\n") := by
  obtain ⟨old, hbefore, -, hafter⟩ := found_append_single hmax hname h
  rw [contentAt_of_file hbefore, contentAt_eq, hafter]
  rfl

theorem hasRoom_rotate_single (hmax : r.maxFiles = .int 1) (hname : '/' ∉ r.fileName.toList)
    (hlimit : .int 1 ≤ r.maxSize) (h : r.append entry d = (.ok (), d')) :
    r.HasRoom (r.rotate d).2 ↔ .int (r.contentAt d 0).utf8ByteSize < r.maxSize := by
  obtain ⟨old, hbefore, hrotated, -⟩ := found_append_single hmax hname h
  rw [contentAt_of_file hbefore]
  exact hasRoom_file hrotated hlimit

end Rotation

namespace Logger

open Rotation (append_of_writeAll_cons)

variable {r : Rotation} {d : Disk} {entry : String} {before after : List String}

theorem writeAll_append (r : Rotation) (before after : List String) (d : Disk) :
    writeAll r (before ++ after) d =
      ((writeAll r after (writeAll r before d).1).1,
        (writeAll r before d).2 ++ (writeAll r after (writeAll r before d).1).2) := by
  induction before generalizing d with
  | nil => simp [writeAll]
  | cons entry before ih => simp [writeAll, ih, String.append_assoc]

theorem append_of_writeAll (h : (writeAll r (before ++ entry :: after) d).2 = "") :
    (writeAll r before d).2 = "" ∧
      ∃ d', r.append entry (writeAll r before d).1 = (.ok (), d') := by
  rw [writeAll_append] at h
  obtain ⟨hbefore, hrest⟩ := String.append_eq_empty_iff.1 h
  exact ⟨hbefore, _, (append_of_writeAll_cons hrest).1⟩

end Logger

namespace Rotation

open Number (twoTo)

variable {r : Rotation} {d : Disk} {m : Nat} {entries : List String}

def beforeAppend (r : Rotation) (before : List String) (d : Disk) : Disk :=
  (r.rotate (Logger.writeAll r before d).1).2

/-- A single file keeps what it had and takes all entries. -/
theorem contentAt_writeAll_single (hmax : r.maxFiles = .int 1) (hname : '/' ∉ r.fileName.toList)
    (h : (Logger.writeAll r entries d).2 = "") :
    r.contentAt (Logger.writeAll r entries d).1 0 =
      r.contentAt d 0 ++ String.join (entries.map (· ++ "\n")) := by
  induction entries generalizing d with
  | nil => simp [Logger.writeAll]
  | cons entry entries ih =>
    obtain ⟨happend, hrest⟩ := append_of_writeAll_cons h
    rw [Logger.writeAll, ih hrest, contentAt_append_single hmax hname happend]
    simp [String.append_assoc]

/-- Several files hold what was there before, and contents within the limit. -/
theorem contents_writeAll (hmax : r.maxFiles = .int (m + 1 : Nat)) (hm : m ≤ twoTo 53)
    (hpos : 0 < m) (hlimit : .int 1 ≤ r.maxSize) (h : (Logger.writeAll r entries d).2 = "") :
    (Logger.writeAll r entries d).1.contents ⊆
      d.contents ∪ {content | ∃ entry ∈ entries, r.IsWithinLimit entry content} := by
  induction entries generalizing d with
  | nil => exact Set.subset_union_left
  | cons entry entries ih =>
    obtain ⟨happend, hrest⟩ := append_of_writeAll_cons h
    have hroom := hasRoom_of_append hmax hm hpos happend
    rw [Logger.writeAll]
    intro content hcontent
    rcases ih hrest hcontent with hold | ⟨other, hother, hwithin⟩
    · rcases contents_append hmax hm hlimit happend hroom hold with hold | hwithin
      · exact .inl hold
      · exact .inr ⟨entry, List.mem_cons_self, hwithin⟩
    · exact .inr ⟨other, List.mem_cons_of_mem _ hother, hwithin⟩

/-- Entries go to files with room. If all entries of some calls on a logger for `n` files are
written, and `n` is at least two, then each entry finds the active file missing or below the limit,
and what files hold afterwards and did not hold before was below the limit before its last entry.
A single file is never moved: there an entry finds room just as long as the file is below the limit
with all entries before it. -/
theorem room_at_each_append (r : Rotation) (n : Nat) (hn : 1 ≤ n) (hexact : n ≤ twoTo 53)
    (hmax : r.maxFiles = .int n) (hlimit : .int 1 ≤ r.maxSize) (threshold : Number)
    (calls : List Call) (d d' : Disk) (l' : Logger)
    (hflush : (calls.foldl Call.perform { threshold, sink := .files r [] }).flush d =
      (l', d', "")) :
    (∀ before entry after, Call.enabledEntries threshold calls = before ++ entry :: after →
      (2 ≤ n → r.HasRoom (r.beforeAppend before d)) ∧
      (n = 1 → '/' ∉ r.fileName.toList →
        (r.HasRoom (r.beforeAppend before d) ↔
          .int (r.contentAt d 0 ++ String.join (before.map (· ++ "\n"))).utf8ByteSize <
            r.maxSize))) ∧
    (2 ≤ n → d'.contents ⊆ d.contents ∪
      {content | ∃ entry ∈ Call.enabledEntries threshold calls,
        r.IsWithinLimit entry content}) := by
  obtain ⟨last, hcalls⟩ := Call.foldl_perform r threshold [] calls
  rw [hcalls, List.nil_append] at hflush
  obtain ⟨-, hwritten⟩ := Prod.mk.inj hflush
  obtain ⟨rfl, hreport⟩ := Prod.mk.inj hwritten
  obtain ⟨m, rfl⟩ : ∃ m, n = m + 1 := ⟨n - 1, by omega⟩
  refine ⟨fun before entry after hsplit => ?_, fun htwo =>
    contents_writeAll hmax (by omega) (by omega) hlimit hreport⟩
  rw [hsplit] at hreport
  obtain ⟨hbefore, d₁, happend⟩ := Logger.append_of_writeAll hreport
  constructor
  · intro htwo
    exact hasRoom_of_append hmax (by omega) (by omega) happend
  · intro hone hname
    have hsingle : r.maxFiles = .int 1 := by
      rw [hmax, hone]
      rfl
    rw [beforeAppend, hasRoom_rotate_single hsingle hname hlimit happend,
      contentAt_writeAll_single hsingle hname hbefore]

theorem room_at_each_append_two :
    fourCallsRun = (fourCallsRun.1, fourCallsRun.2.1, "") ∧
    twoFiles.HasRoom
      (twoFiles.beforeAppend ["[t] [INFO] [c] x", "[t] [WARN] [c] y"] twoFilesDisk) ∧
    fourCallsRun.2.1.contents ⊆ twoFilesDisk.contents ∪
      {content | ∃ entry ∈ Call.enabledEntries Level.info.threshold fourCalls,
        twoFiles.IsWithinLimit entry content} := by
  have hreport : fourCallsRun.2.2 = "" := by decide +kernel
  have hrun : fourCallsRun = (fourCallsRun.1, fourCallsRun.2.1, "") := by
    rw [← hreport]
  have hsmall : 2 ≤ twoTo 53 := by decide
  have hlimit : .int 1 ≤ twoFiles.maxSize := by decide
  have hentries : Call.enabledEntries Level.info.threshold fourCalls =
      ["[t] [INFO] [c] x", "[t] [WARN] [c] y"] ++ ["[t] [ERROR] [c] z"] := by decide +kernel
  have hboth := room_at_each_append twoFiles 2 (by decide) hsmall rfl hlimit
    Level.info.threshold fourCalls twoFilesDisk fourCallsRun.2.1 fourCallsRun.1 hrun
  exact ⟨hrun, (hboth.1 _ _ _ hentries).1 le_rfl, hboth.2 le_rfl⟩

/-- A single log file that is full with a byte. -/
def oneFile : Rotation := { twoFiles with maxFiles := .int 1 }

/-- With a single file, the second of three entries is added to a file that is full. -/
theorem single_file_outgrows_limit :
    ((fourCalls.foldl Call.perform
      { threshold := Level.info.threshold, sink := .files oneFile [] }).flush twoFilesDisk).2.2 =
        "" ∧
    ∃ before entry after,
      Call.enabledEntries Level.info.threshold fourCalls = before ++ entry :: after ∧
        ¬ oneFile.HasRoom (oneFile.beforeAppend before twoFilesDisk) := by
  refine ⟨by decide +kernel, ["[t] [INFO] [c] x"], "[t] [WARN] [c] y", ["[t] [ERROR] [c] z"],
    by decide +kernel, ?_⟩
  rw [hasRoom_iff]
  decide +kernel

end Rotation
end Log
end Marginalia
