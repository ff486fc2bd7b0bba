import Marginalia.Log.Logger
import Marginalia.Proofs.Disk
import Marginalia.Proofs.Numbered
import Mathlib.Data.Set.Card

/-!
# Log files in rotation

The log files of a rotation have the indices from 0, which is the active file,
up to the number of files less one. A higher index holds older entries, so the
files read from the highest index down are the transcript of the log. A rotation
moves every file on by one index, the highest first, and thereby drops the oldest
file and nothing else. What was logged is therefore found at the end of the
transcript, whatever was rotated on the way.
-/

namespace Marginalia
namespace Path

theorem lastSegment_of_notMem {p : List Char} (h : '/' ∉ p) : lastSegment p = p := by
  have hr : ∀ c ∈ p.reverse, c ≠ '/' := fun c hc heq => h (heq ▸ List.mem_reverse.1 hc)
  have hdrop : dropSlashes p = p := by
    rw [dropSlashes, List.dropWhile_eq_self_iff.2, List.reverse_reverse]
    intro hlen
    simpa using hr _ (List.getElem_mem hlen)
  rw [lastSegment, hdrop, List.takeWhile_eq_self_iff.2, List.reverse_reverse]
  simpa using hr

theorem lastSlashes_of_notMem {p : List Char} (h : '/' ∉ p) : lastSlashes p = [] := by
  rw [lastSlashes, List.takeWhile_eq_nil_iff.2, List.reverse_nil]
  intro hlen
  have hmem := List.mem_reverse.1 (List.getElem_mem hlen)
  simp only [decide_eq_true_eq]
  exact fun heq => h (heq ▸ hmem)

theorem toList_stem_of_notMem (ending : String) {p : String} (h : '/' ∉ p.toList) :
    (stem ending p).toList = p.toList ∨ (stem ending p).toList ++ ending.toList = p.toList := by
  unfold stem
  simp only [lastSegment_of_notMem h, lastSlashes_of_notMem h, List.append_nil]
  split
  · rename_i hp
    exact .inr (by rw [hp]; rfl)
  · split
    · exact .inl String.toList_ofList
    · split
      · exact .inl String.toList_ofList
      · split
        · rename_i hsuffix
          obtain ⟨front, hfront⟩ := List.isSuffixOf_iff_suffix.1 hsuffix
          refine .inr ?_
          rw [String.toList_ofList, ← hfront]
          simp [← String.length_toList]
        · exact .inl String.toList_ofList

end Path

namespace Number

theorem toText_int {i : Nat} (h : i ≤ twoTo 53) : (Number.int i).toText = Nat.repr i := by
  have hneg : ¬ (i : Int) < 0 := by omega
  simp [toText, text, signed, h, hneg, Nat.repr]

end Number

namespace Log

namespace Rotation

open Number (twoTo)

variable {r : Rotation} {d d' d'' : Disk} {n i j k : Nat}

def rotatedName (r : Rotation) (i : Nat) : String :=
  Path.stem ".log" r.fileName ++ "." ++ Nat.repr i ++ ".log"

/-- The path of a log file. The active file has index 0. -/
def logPath (r : Rotation) (i : Nat) : String :=
  if i = 0 then r.activePath else Path.join r.directory (r.rotatedName i)

theorem logPath_of_pos (hi : 0 < i) :
    r.logPath i = Path.join r.directory (r.rotatedName i) :=
  if_neg (by omega)

theorem rotatedPath_int (h : i ≤ twoTo 53) :
    r.rotatedPath (.int i) = Path.join r.directory (r.rotatedName i) := by
  rw [rotatedPath, Number.toText_int h, rotatedName]

theorem pathAt_int (h : i ≤ twoTo 53) : r.pathAt (.int i) = r.logPath i := by
  rw [pathAt, logPath, rotatedPath_int h]
  simp

theorem slash_notMem_rotatedName (hname : '/' ∉ r.fileName.toList) (i : Nat) :
    '/' ∉ (r.rotatedName i).toList := by
  have hstem : '/' ∉ (Path.stem ".log" r.fileName).toList := by
    rcases Path.toList_stem_of_notMem ".log" hname with h | h
    · rwa [h]
    · rw [← h] at hname
      exact fun hmem => hname (List.mem_append_left _ hmem)
  have hdigits : '/' ∉ Nat.toDigits 10 i := notMem_toDigits (by decide) i
  simp [rotatedName, hstem, hdigits]

theorem toList_rotatedName (r : Rotation) (i : Nat) :
    (r.rotatedName i).toList =
      (Path.stem ".log" r.fileName).toList ++
        '.' :: (Nat.toDigits 10 i ++ ['.', 'l', 'o', 'g']) := by
  simp [rotatedName]

theorem length_lt_length_rotatedName (hname : '/' ∉ r.fileName.toList) (i : Nat) :
    r.fileName.toList.length < (r.rotatedName i).toList.length := by
  rw [toList_rotatedName]
  rcases Path.toList_stem_of_notMem ".log" hname with h | h
  · rw [h]
    simp
  · rw [← h]
    simp

theorem isName_rotatedName (r : Rotation) (i : Nat) : Path.IsName (r.rotatedName i).toList := by
  have hlen : 2 < (r.rotatedName i).toList.length := by
    rw [toList_rotatedName]
    simp
    omega
  exact Path.isName_of_two_lt_length hlen

theorem rotatedName_injective (h : r.rotatedName i = r.rotatedName j) : i = j := by
  have hl := congrArg String.toList h
  rw [toList_rotatedName, toList_rotatedName] at hl
  exact toDigits_injective
    (List.append_cancel_right (List.cons.inj (List.append_cancel_left hl)).2)

theorem placeOf_rotated (hname : '/' ∉ r.fileName.toList) (d : Disk) (i : Nat) :
    d.placeOf (Path.join r.directory (r.rotatedName i)) =
      d.placeOf r.directory ++ [(r.rotatedName i).toList] := by
  have hslash := slash_notMem_rotatedName hname i
  rw [Disk.placeOf, Path.segments_join _ _ (Path.isAbsolute_of_notMem hslash),
    Path.walk_of_isName (isName_rotatedName r i) hslash, Disk.placeOf]

theorem placeOf_rotated_injective (hname : '/' ∉ r.fileName.toList) (d : Disk)
    (h : d.placeOf (Path.join r.directory (r.rotatedName i)) =
      d.placeOf (Path.join r.directory (r.rotatedName j))) : i = j := by
  rw [placeOf_rotated hname, placeOf_rotated hname] at h
  exact rotatedName_injective
    (String.toList_injective (List.singleton_inj.1 (List.append_cancel_left h)))

/-- The active file lies beside the rotated ones, or not even in their directory if its name is
no name. -/
theorem placeOf_active_ne_rotated (hname : '/' ∉ r.fileName.toList) (d : Disk) (i : Nat) :
    d.placeOf r.activePath ≠ d.placeOf (Path.join r.directory (r.rotatedName i)) := by
  rw [placeOf_rotated hname, activePath, Disk.placeOf,
    Path.segments_join _ _ (Path.isAbsolute_of_notMem hname), ← Disk.placeOf]
  by_cases hproper : Path.IsName r.fileName.toList
  · rw [Path.walk_of_isName hproper hname]
    intro h
    have hlast := List.append_cancel_left h
    have hlen := length_lt_length_rotatedName hname i
    rw [List.singleton_inj.1 hlast] at hlen
    exact lt_irrefl _ hlen
  · intro h
    have hle := Path.length_walk_le (d.placeOf r.directory) hproper hname
    rw [h] at hle
    simp at hle

theorem placeOf_logPath_injective (hname : '/' ∉ r.fileName.toList) (d : Disk)
    (h : d.placeOf (r.logPath i) = d.placeOf (r.logPath j)) : i = j := by
  unfold logPath at h
  split at h <;> split at h
  · omega
  · exact absurd h (placeOf_active_ne_rotated hname d j)
  · exact absurd h.symm (placeOf_active_ne_rotated hname d i)
  · exact placeOf_rotated_injective hname d h

/-- What the log file with an index shows. -/
def found (r : Rotation) (d : Disk) (i : Nat) : Option Disk.Entry := d.lookAt (r.logPath i)

theorem found_eq {places : Set Disk.Key} (h : Disk.FilesDiffer places d d')
    (hi : d.placeOf (r.logPath i) ∉ places) : r.found d' i = r.found d i :=
  h.lookAt_eq hi

theorem advance_cases (hi : i + 1 ≤ twoTo 53) (h : r.advance (.int i) d = (.ok (), d')) :
    r.found d i = none ∧ d' = d ∨
      (r.found d i).isSome ∧ d.rename (r.logPath i) (r.logPath (i + 1)) = .ok d' := by
  have hnext : (Number.int i).addInt 1 = .int ((i + 1 : Nat) : Int) :=
    Number.addInt_int (by omega)
  unfold advance at h
  rw [pathAt_int (by omega), hnext, rotatedPath_int hi, ← logPath_of_pos (by omega)] at h
  rw [Disk.Action.get_bind, Disk.hasPath_eq] at h
  split at h
  · rename_i hsome
    exact .inr ⟨hsome, Disk.Action.of_eq_ok h⟩
  · rename_i hnone
    cases h
    exact .inl ⟨by simpa [found] using hnone, rfl⟩

/-- A log file that is there moves to the next index, which is free. -/
theorem found_of_advance (hname : '/' ∉ r.fileName.toList) (hi : i + 1 ≤ twoTo 53)
    (hfile : r.found d i ≠ some .directory) (hfree : r.found d (i + 1) = none)
    (h : r.advance (.int i) d = (.ok (), d')) :
    r.found d' i = none ∧ r.found d' (i + 1) = r.found d i ∧
      ∀ j, j ≠ i → j ≠ i + 1 → r.found d' j = r.found d j := by
  rcases advance_cases hi h with ⟨hnone, rfl⟩ | ⟨hsome, hrename⟩
  · rw [hnone]
    exact ⟨rfl, hfree, fun _ _ _ => rfl⟩
  · obtain ⟨e, hfound⟩ := Option.isSome_iff_exists.1 hsome
    cases e with
    | directory => exact absurd hfound hfile
    | file content =>
      have hne : d.placeOf (r.logPath i) ≠ d.placeOf (r.logPath (i + 1)) := fun heq =>
        absurd (placeOf_logPath_injective hname d heq) (by omega)
      obtain ⟨hdiffer, hsource, htarget⟩ := Disk.lookAt_rename_file hfound hne hrename
      rw [hfound]
      refine ⟨hsource, htarget, fun j hj hj' => found_eq hdiffer ?_⟩
      rintro (heq | heq)
      · exact hj (placeOf_logPath_injective hname d heq)
      · exact hj' (placeOf_logPath_injective hname d heq)

theorem countdown_int (hk : k ≤ twoTo 53) :
    countdown (.int (k : Nat)) (k + 1) =
      .int (k : Nat) :: countdown (.int (k - 1 : Nat)) k := by
  cases k with
  | zero => rfl
  | succ k =>
    have hpred : (Number.int ((k + 1 : Nat) : Int)).addInt (-1) = .int (k : Nat) := by
      rw [Number.addInt_int (by omega)]
      congr 1
      omega
    rw [countdown, hpred, Nat.add_sub_cancel]

/-- The files with an index below `k` move on, the highest first, if the index `k` is free. -/
theorem found_of_countdown (hname : '/' ∉ r.fileName.toList) (hk : k ≤ twoTo 53)
    (hfile : ∀ i, r.found d i ≠ some .directory) (hfree : r.found d k = none)
    (h : (countdown (.int (k - 1 : Nat)) k).forM r.advance d = (.ok (), d')) :
    r.found d' 0 = none ∧ (∀ i < k, r.found d' (i + 1) = r.found d i) ∧
      ∀ i, k < i → r.found d' i = r.found d i := by
  induction k generalizing d with
  | zero =>
    cases h
    exact ⟨hfree, by simp, fun _ _ => rfl⟩
  | succ k ih =>
    rw [Nat.add_sub_cancel, countdown_int (by omega)] at h
    obtain ⟨⟨⟩, d₁, hadvance, hrest⟩ := Disk.Action.bind_eq_ok h
    obtain ⟨hgone, hmoved, hother⟩ := found_of_advance hname hk (hfile k) hfree hadvance
    have hfile₁ : ∀ i, r.found d₁ i ≠ some .directory := by
      intro i
      by_cases hi : i = k
      · simp [hi, hgone]
      · by_cases hi' : i = k + 1
        · rw [hi', hmoved]
          exact hfile k
        · rw [hother i hi hi']
          exact hfile i
    obtain ⟨hactive, hmoved', hother'⟩ := ih (by omega) hfile₁ hgone hrest
    refine ⟨hactive, fun i hi => ?_, fun i hi => ?_⟩
    · rcases Nat.lt_succ_iff_lt_or_eq.1 hi with hlt | rfl
      · rw [hmoved' i hlt, hother i (by omega) (by omega)]
      · rw [hother' _ (by omega), hmoved]
    · rw [hother' i (by omega), hother i (by omega) (by omega)]

/-- The content of the log file with an index, or nothing if it is not there. -/
def contentAt (r : Rotation) (d : Disk) (i : Nat) : String :=
  ((d.read (r.logPath i)).toOption).getD ""

/-- The contents of the log files below an index, the highest index first. -/
def transcript (r : Rotation) (d : Disk) : Nat → String
  | 0 => ""
  | n + 1 => r.contentAt d n ++ r.transcript d n

/-- What is found under the names of log files are files with an index below `n`. -/
structure Regular (r : Rotation) (n : Nat) (d : Disk) : Prop where
  below : ∀ i, d.hasPath (r.logPath i) → i < n
  isFile : ∀ i, d.hasPath (r.logPath i) → ∃ content, d.read (r.logPath i) = .ok content

theorem regular_iff :
    r.Regular n d ↔ ∀ i e, r.found d i = some e → i < n ∧ ∃ content, e = .file content := by
  constructor
  · intro h i e he
    have hpath : d.hasPath (r.logPath i) = true := by
      rw [Disk.hasPath_eq, Option.isSome_iff_exists]
      exact ⟨e, he⟩
    obtain ⟨content, hread⟩ := h.isFile i hpath
    refine ⟨h.below i hpath, content, ?_⟩
    rw [Disk.read_eq_ok_iff] at hread
    exact Option.some.inj (he.symm.trans hread)
  · intro h
    have hfound : ∀ i, d.hasPath (r.logPath i) →
        i < n ∧ ∃ content, d.read (r.logPath i) = .ok content := by
      intro i hi
      rw [Disk.hasPath_eq, Option.isSome_iff_exists] at hi
      obtain ⟨e, he⟩ := hi
      obtain ⟨hlt, content, rfl⟩ := h i e he
      exact ⟨hlt, content, Disk.read_eq_ok_iff.2 he⟩
    exact ⟨fun i hi => (hfound i hi).1, fun i hi => (hfound i hi).2⟩

theorem Regular.found_ne_directory (h : r.Regular n d) (i : Nat) :
    r.found d i ≠ some .directory := by
  intro hi
  obtain ⟨-, content, hfile⟩ := regular_iff.1 h i _ hi
  cases hfile

theorem contentAt_eq (r : Rotation) (d : Disk) (i : Nat) :
    r.contentAt d i = ((r.found d i).bind Disk.Entry.content?).getD "" := by
  rw [contentAt, Disk.toOption_read]
  rfl

theorem transcript_congr (h : ∀ i < n, r.found d' i = r.found d i) :
    r.transcript d' n = r.transcript d n := by
  induction n with
  | zero => rfl
  | succ n ih =>
    rw [transcript, transcript, contentAt_eq, h n (by omega), ← contentAt_eq,
      ih fun i hi => h i (by omega)]

theorem transcript_succ_of_moved (hactive : r.found d' 0 = none)
    (hmoved : ∀ i < n, r.found d' (i + 1) = r.found d i) :
    r.transcript d' (n + 1) = r.transcript d n := by
  induction n with
  | zero =>
    change r.contentAt d' 0 ++ "" = ""
    rw [contentAt_eq, hactive]
    rfl
  | succ n ih =>
    rw [transcript, contentAt_eq, hmoved n (by omega), ← contentAt_eq,
      ih fun i hi => hmoved i (by omega), transcript]

theorem transcript_of_appended {content : String} (hn : 0 < n)
    (hactive : r.contentAt d' 0 = r.contentAt d 0 ++ content)
    (hother : ∀ i, i ≠ 0 → r.found d' i = r.found d i) :
    r.transcript d' n = r.transcript d n ++ content := by
  induction n with
  | zero => omega
  | succ n ih =>
    rw [transcript, transcript]
    rcases Nat.eq_zero_or_pos n with rfl | hpos
    · rw [hactive, transcript, transcript, String.append_empty, String.append_empty]
    · rw [ih hpos, contentAt_eq, hother n (by omega), ← contentAt_eq, String.append_assoc]

theorem lastIndex_int {m : Nat} (hmax : r.maxFiles = .int (m + 1 : Nat)) (hm : m ≤ twoTo 53) :
    r.lastIndex = .int m := by
  rw [lastIndex, hmax, Number.addInt_int (by omega)]
  congr 1
  omega

theorem moving_int {m : Nat} (hmax : r.maxFiles = .int (m + 1 : Nat)) (hm : m ≤ twoTo 53) :
    r.moving = countdown (.int (m - 1 : Nat)) m := by
  have hpos : 1 ≤ twoTo 53 := by decide
  have hfinite : r.maxFiles.isFinite = true := by
    rw [hmax]
    rfl
  have htop : r.maxFiles.addInt (-2) = .int ((m : Int) - 1) := by
    rw [hmax, Number.addInt_int (by omega)]
    congr 1
    omega
  rw [moving, htop, if_pos hfinite, downToZero]
  cases m with
  | zero => rfl
  | succ m =>
    congr 1
    · congr 1
      omega
    · simp [Number.floor, Number.numerator, Number.exponent, twoTo]

/-- A rotation does nothing, or it discards the file with the last index and moves the others
on. -/
theorem rotate_cases {m : Nat} (hmax : r.maxFiles = .int (m + 1 : Nat)) (hm : m ≤ twoTo 53)
    (h : r.rotate d = (.ok (), d')) :
    r.isFull d = false ∧ d' = d ∨
      ∃ d₁, d.discard (Path.join r.directory (r.rotatedName m)) = .ok d₁ ∧
        (countdown (.int (m - 1 : Nat)) m).forM r.advance d₁ = (.ok (), d') := by
  unfold rotate at h
  rw [Disk.Action.get_bind] at h
  split at h
  · obtain ⟨⟨⟩, d₁, hdiscard, hmove⟩ := Disk.Action.bind_eq_ok h
    rw [lastIndex_int hmax hm, rotatedPath_int hm] at hdiscard
    rw [moving_int hmax hm] at hmove
    exact .inr ⟨d₁, Disk.Action.of_eq_ok hdiscard, hmove⟩
  · rename_i hfull
    cases h
    exact .inl ⟨by simpa using hfull, rfl⟩

theorem found_of_rotate_single (hmax : r.maxFiles = .int 1) (hname : '/' ∉ r.fileName.toList)
    (h : r.rotate d = (.ok (), d')) (i : Nat) : r.found d' i = r.found d i := by
  rcases rotate_cases (m := 0) hmax (by decide) h with ⟨-, rfl⟩ | ⟨d₁, hdiscard, hmove⟩
  · rfl
  · cases hmove
    obtain ⟨hdiffer, -⟩ := Disk.lookAt_discard hdiscard
    refine found_eq hdiffer ?_
    -- The index that is removed is 0, but the active file has another name.
    unfold logPath
    split
    · exact placeOf_active_ne_rotated hname d 0
    · rename_i hi
      exact fun heq => hi (placeOf_rotated_injective hname d heq)

/-- Of several files, each moves on by one index and the last one is dropped, or nothing
happens. -/
theorem found_of_rotate {m : Nat} (hmax : r.maxFiles = .int (m + 1 : Nat)) (hm : m ≤ twoTo 53)
    (hpos : 0 < m) (hname : '/' ∉ r.fileName.toList)
    (hfile : ∀ i, r.found d i ≠ some .directory) (h : r.rotate d = (.ok (), d')) :
    d' = d ∨ r.found d' 0 = none ∧ (∀ i < m, r.found d' (i + 1) = r.found d i) ∧
      ∀ i, m < i → r.found d' i = r.found d i := by
  rcases rotate_cases hmax hm h with ⟨-, rfl⟩ | ⟨d₁, hdiscard, hmove⟩
  · exact .inl rfl
  · right
    rw [← logPath_of_pos hpos] at hdiscard
    obtain ⟨hdiffer, hgone⟩ := Disk.lookAt_discard hdiscard
    have hother : ∀ i, i ≠ m → r.found d₁ i = r.found d i := fun i hi =>
      found_eq hdiffer fun heq => hi (placeOf_logPath_injective hname d heq)
    have hfile₁ : ∀ i, r.found d₁ i ≠ some .directory := by
      intro i
      by_cases hi : i = m
      · rw [hi, found, hgone]
        simp
      · rw [hother i hi]
        exact hfile i
    obtain ⟨hactive, hmoved, hbeyond⟩ := found_of_countdown hname hm hfile₁ hgone hmove
    refine ⟨hactive, fun i hi => ?_, fun i hi => ?_⟩
    · rw [hmoved i hi, hother i (by omega)]
    · rw [hbeyond i hi, hother i (by omega)]

/-- A rotation drops the beginning of the transcript. -/
theorem transcript_of_rotate (hn : 1 ≤ n) (hexact : n ≤ twoTo 53) (hmax : r.maxFiles = .int n)
    (hname : '/' ∉ r.fileName.toList) (hregular : r.Regular n d)
    (h : r.rotate d = (.ok (), d')) :
    r.Regular n d' ∧ ∃ dropped, dropped ++ r.transcript d' n = r.transcript d n := by
  obtain ⟨m, rfl⟩ : ∃ m, n = m + 1 := ⟨n - 1, by omega⟩
  rcases Nat.eq_zero_or_pos m with rfl | hpos
  · have hsame := found_of_rotate_single hmax hname h
    refine ⟨regular_iff.2 fun i e he => regular_iff.1 hregular i e (hsame i ▸ he), "", ?_⟩
    rw [String.empty_append, transcript_congr fun i _ => hsame i]
  · rcases found_of_rotate hmax (by omega) hpos hname hregular.found_ne_directory h with
      rfl | ⟨hactive, hmoved, hbeyond⟩
    · exact ⟨hregular, "", String.empty_append⟩
    · refine ⟨regular_iff.2 fun i e he => ?_, r.contentAt d m, ?_⟩
      · cases i with
        | zero => simp [hactive] at he
        | succ i =>
          rcases Nat.lt_or_ge i m with hi | hi
          · rw [hmoved i hi] at he
            exact ⟨by omega, (regular_iff.1 hregular i e he).2⟩
          · rw [hbeyond (i + 1) (by omega)] at he
            exact regular_iff.1 hregular (i + 1) e he
      · rw [transcript_succ_of_moved hactive hmoved, transcript]

theorem transcript_of_append {entry : String} (hn : 1 ≤ n) (hexact : n ≤ twoTo 53)
    (hmax : r.maxFiles = .int n) (hname : '/' ∉ r.fileName.toList) (hregular : r.Regular n d)
    (h : r.append entry d = (.ok (), d')) :
    r.Regular n d' ∧
      (∃ dropped, dropped ++ r.transcript d' n = r.transcript d n ++ (entry ++ "\n")) ∧
      ∃ front, d'.read r.activePath = .ok (front ++ (entry ++ "\n")) := by
  obtain ⟨⟨⟩, d₁, hrotate, happend⟩ := Disk.Action.bind_eq_ok h
  obtain ⟨hregular₁, dropped, hdropped⟩ :=
    transcript_of_rotate hn hexact hmax hname hregular hrotate
  obtain ⟨hdiffer, old, hold, hnew⟩ := Disk.lookAt_update (Disk.Action.of_eq_ok happend)
  have hactive : r.found d' 0 = some (.file (old.getD "" ++ (entry ++ "\n"))) := hnew
  have hother : ∀ i, i ≠ 0 → r.found d' i = r.found d₁ i := fun i hi =>
    found_eq hdiffer fun heq => hi (placeOf_logPath_injective hname d₁ (j := 0) heq)
  have hcontent : r.contentAt d' 0 = r.contentAt d₁ 0 ++ (entry ++ "\n") := by
    have hfound : r.found d₁ 0 = old.map .file := hold
    rw [contentAt_eq, contentAt_eq, hactive, hfound]
    cases old <;> rfl
  refine ⟨regular_iff.2 fun i e he => ?_, ⟨dropped, ?_⟩, ⟨_, Disk.read_eq_ok_iff.2 hactive⟩⟩
  · by_cases hi : i = 0
    · subst hi
      rw [hactive] at he
      exact ⟨by omega, _, (Option.some.inj he).symm⟩
    · rw [hother i hi] at he
      exact regular_iff.1 hregular₁ i e he
  · rw [transcript_of_appended (by omega) hcontent hother, ← hdropped, String.append_assoc]

end Rotation

inductive Call where
  | log (stamp : String) (event : Event)
  | setThreshold (threshold : Number)

namespace Call

/-- What a call does to a logger for files, which shows nothing on the console. -/
def perform (l : Logger) : Call → Logger
  | .log stamp event => (l.log stamp event).1
  | .setThreshold threshold => { l with threshold }

/-- The entries of the events whose level was enabled when they were logged. -/
def enabledEntries (threshold : Number) : List Call → List String
  | [] => []
  | .log stamp event :: calls =>
    if event.level.isEnabled threshold then event.entry stamp :: enabledEntries threshold calls
    else enabledEntries threshold calls
  | .setThreshold changed :: calls => enabledEntries changed calls

theorem foldl_perform (r : Rotation) (threshold : Number) (queue : List String)
    (calls : List Call) :
    ∃ last, calls.foldl perform { threshold, sink := .files r queue } =
      { threshold := last, sink := .files r (queue ++ enabledEntries threshold calls) } := by
  induction calls generalizing threshold queue with
  | nil => exact ⟨threshold, by simp [enabledEntries]⟩
  | cons call calls ih =>
    cases call with
    | log stamp event =>
      rw [List.foldl_cons, enabledEntries, perform, Logger.log]
      split
      · obtain ⟨last, hlast⟩ := ih threshold (queue ++ [event.entry stamp])
        exact ⟨last, by rw [hlast, List.append_assoc, List.singleton_append]⟩
      · exact ih threshold queue
    | setThreshold changed => exact ih changed queue

end Call

namespace Rotation

open Number (twoTo)

variable {r : Rotation} {d d' : Disk} {n : Nat}

/-- An entry that cannot be written is reported. -/
theorem append_eq_ok_of_report {entry : String} (h : (Logger.writeEntry r entry d).2 = "") :
    r.append entry d = (.ok (), (Logger.writeEntry r entry d).1) := by
  unfold Logger.writeEntry at h ⊢
  split
  · assumption
  · rename_i e d₁ happend
    rw [happend] at h
    have hl := congrArg String.toList h
    simp at hl

theorem append_of_writeAll_cons {entry : String} {after : List String}
    (h : (Logger.writeAll r (entry :: after) d).2 = "") :
    r.append entry d = (.ok (), (Logger.writeEntry r entry d).1) ∧
      (Logger.writeAll r after (Logger.writeEntry r entry d).1).2 = "" := by
  obtain ⟨hentry, hafter⟩ := String.append_eq_empty_iff.1 h
  exact ⟨append_eq_ok_of_report hentry, hafter⟩

/-- Entries that are all written end the transcript in call order, and the last one ends the
active file. -/
theorem transcript_of_writeAll (hn : 1 ≤ n) (hexact : n ≤ twoTo 53) (hmax : r.maxFiles = .int n)
    (hname : '/' ∉ r.fileName.toList) (hregular : r.Regular n d) {entries : List String}
    (h : Logger.writeAll r entries d = (d', "")) :
    r.Regular n d' ∧
      (∃ dropped, dropped ++ r.transcript d' n =
        r.transcript d n ++ String.join (entries.map (· ++ "\n"))) ∧
      ∀ entry, entries.getLast? = some entry →
        ∃ front, d'.read r.activePath = .ok (front ++ (entry ++ "\n")) := by
  induction entries generalizing d with
  | nil =>
    cases h
    exact ⟨hregular, ⟨"", by simp⟩, by simp⟩
  | cons entry entries ih =>
    obtain ⟨hd, hreport⟩ := Prod.mk.inj h
    obtain ⟨happend, hrest⟩ := append_of_writeAll_cons hreport
    obtain ⟨hregular₁, ⟨dropped, hdropped⟩, hlast⟩ :=
      transcript_of_append hn hexact hmax hname hregular happend
    obtain ⟨hregular', ⟨dropped', hdropped'⟩, hlast'⟩ := ih hregular₁ (Prod.ext hd hrest)
    refine ⟨hregular', ⟨dropped ++ dropped', ?_⟩, fun last hmem => ?_⟩
    · calc
        dropped ++ dropped' ++ r.transcript d' n
            = dropped ++ r.transcript (Logger.writeEntry r entry d).1 n ++
                String.join (entries.map (· ++ "\n")) := by
              rw [String.append_assoc, hdropped', String.append_assoc]
        _ = r.transcript d n ++ String.join ((entry :: entries).map (· ++ "\n")) := by
              rw [hdropped, String.append_assoc]
              simp [String.append_assoc]
    · cases entries with
      | nil =>
        obtain rfl : entry = last := by simpa using hmem
        rw [Logger.writeAll] at hd
        rwa [hd] at hlast
      | cons next entries => exact hlast' last (by simpa using hmem)

/-- The log files hold the newest entries in order. After any calls on a logger for `n` files,
all of which are written, the transcript is the end of the earlier transcript with the entries of
all enabled events behind it; there are at most `n` log files, and the last entry ends the active
one. Up to `2 ^ 53`, which bounds the number of files here, the numbers of the format are the
integers. -/
theorem transcript_after_calls (r : Rotation) (n : Nat) (hn : 1 ≤ n) (hexact : n ≤ twoTo 53)
    (hmax : r.maxFiles = .int n) (hname : '/' ∉ r.fileName.toList) (threshold : Number)
    (calls : List Call) (d d' : Disk) (l' : Logger) (hregular : r.Regular n d)
    (hflush : (calls.foldl Call.perform { threshold, sink := .files r [] }).flush d =
      (l', d', "")) :
    (∃ dropped, dropped ++ r.transcript d' n =
      r.transcript d n ++ String.join ((Call.enabledEntries threshold calls).map (· ++ "\n"))) ∧
    r.Regular n d' ∧ {i | d'.hasPath (r.logPath i) = true}.encard ≤ n ∧
    ∀ entry, (Call.enabledEntries threshold calls).getLast? = some entry →
      ∃ front, d'.read r.activePath = .ok (front ++ (entry ++ "\n")) := by
  obtain ⟨last, hcalls⟩ := Call.foldl_perform r threshold [] calls
  rw [hcalls, List.nil_append] at hflush
  obtain ⟨-, hwritten⟩ := Prod.mk.inj hflush
  obtain ⟨hd, hreport⟩ := Prod.mk.inj hwritten
  obtain ⟨hregular', htranscript, hlast⟩ :=
    transcript_of_writeAll hn hexact hmax hname hregular (Prod.ext hd hreport)
  refine ⟨htranscript, hregular', ?_, hlast⟩
  have hsubset : {i | d'.hasPath (r.logPath i) = true} ⊆ (Finset.range n : Set Nat) :=
    fun i hi => Finset.mem_coe.2 (Finset.mem_range.2 (hregular'.below i hi))
  calc
    {i | d'.hasPath (r.logPath i) = true}.encard ≤ (Finset.range n : Set Nat).encard :=
      Set.encard_le_encard hsubset
    _ = n := by rw [Set.encard_coe_eq_coe_finsetCard, Finset.card_range]

/-- Two log files that are full with a byte. -/
def twoFiles : Rotation :=
  { directory := "/l", fileName := "a.log", maxSize := .int 1, maxFiles := .int 2 }

def twoFilesDisk : Disk := { workingDir := "/", entries := [([['l']], .directory)] }

/-- Three entries, and an event that is not enabled because of a change of the threshold. -/
def fourCalls : List Call :=
  [.log "t" { level := .info, component := "c", message := "x", details := .null },
    .log "t" { level := .warn, component := "c", message := "y", details := .null },
    .setThreshold Level.error.threshold,
    .log "t" { level := .info, component := "c", message := "w", details := .null },
    .log "t" { level := .error, component := "c", message := "z", details := .null }]

theorem length_placeOf_twoFiles (i : Nat) :
    (twoFilesDisk.placeOf (twoFiles.logPath i)).length = 2 := by
  unfold logPath
  split
  · decide +kernel
  · have hdir : twoFilesDisk.placeOf twoFiles.directory = [['l']] := by decide +kernel
    rw [placeOf_rotated (by decide +kernel), hdir]
    rfl

theorem regular_twoFiles : twoFiles.Regular 2 twoFilesDisk := by
  rw [regular_iff]
  intro i e he
  have hentry := (Disk.lookAt_eq_some_iff.1 he).2
  have hlen := length_placeOf_twoFiles i
  obtain ⟨a, b, hab⟩ := List.length_eq_two.1 hlen
  rw [hab] at hentry
  simp [Disk.entry?, twoFilesDisk, List.lookup_cons] at hentry

def fourCallsRun : Logger × Disk × String :=
  (fourCalls.foldl Call.perform { threshold := Level.info.threshold, sink := .files twoFiles [] }
    ).flush twoFilesDisk

theorem transcript_after_calls_dropped :
    twoFiles.Regular 2 twoFilesDisk ∧ fourCallsRun = (fourCallsRun.1, fourCallsRun.2.1, "") ∧
    ∃ dropped, dropped ++ twoFiles.transcript fourCallsRun.2.1 2 =
      twoFiles.transcript twoFilesDisk 2 ++
        String.join ((Call.enabledEntries Level.info.threshold fourCalls).map (· ++ "\n")) := by
  have hreport : fourCallsRun.2.2 = "" := by decide +kernel
  have hsilent : ∀ x : Logger × Disk × String, x.2.2 = "" → x = (x.1, x.2.1, "") := by
    rintro ⟨l, d, report⟩ rfl
    rfl
  have hrun := hsilent fourCallsRun hreport
  have hsmall : 2 ≤ twoTo 53 := by decide
  have hslash : '/' ∉ twoFiles.fileName.toList := by decide +kernel
  exact ⟨regular_twoFiles, hrun,
    (transcript_after_calls twoFiles 2 (by decide) hsmall rfl hslash Level.info.threshold fourCalls
      twoFilesDisk fourCallsRun.2.1 fourCallsRun.1 regular_twoFiles hrun).1⟩

end Rotation
end Log
end Marginalia
