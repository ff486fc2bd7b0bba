import Marginalia.Proofs.Directories
import Marginalia.Proofs.Rotation

/-!
# Log files stay in their directory

Whatever is written to log files, and whether it succeeds or not, the disk is the
same outside the directory of the log files. Every operation of a rotation is on
a name in that directory, and an operation changes what is at or below the names
it is about.
-/

namespace Marginalia
namespace Disk

variable {d d' d'' : Disk} {base k : Key} {path : String}

theorem entry?_erase_of_ne {key : Key} (d : Disk) (hk : k ≠ key) :
    Disk.entry? (d.erase key) k = d.entry? k := by
  by_cases hnil : k = []
  · rw [hnil, entry?_nil, entry?_nil]
  · rw [entry?_of_ne_nil _ hnil, entry?_of_ne_nil _ hnil, erase, lookup_filter_ne, if_neg hk]

theorem entry?_moveAll_of_not_below {source target : Key} (d : Disk) (hs : ¬ source <+: k)
    (ht : ¬ target <+: k) : Disk.entry? (d.moveAll source target) k = d.entry? k := by
  by_cases hnil : k = []
  · rw [hnil, entry?_nil, entry?_nil]
  · rw [entry?_of_ne_nil _ hnil, entry?_of_ne_nil _ hnil, moveAll]
    dsimp only
    induction d.entries with
    | nil => rfl
    | cons x entries ih =>
      obtain ⟨key, e⟩ := x
      rw [List.map_cons]
      by_cases hkey : source <+: key
      · have hne : k ≠ key := by
          rintro rfl
          exact hs hkey
        have hne' : k ≠ target ++ key.drop source.length := by
          rintro rfl
          exact ht (List.prefix_append _ _)
        rw [if_pos (List.isPrefixOf_iff_prefix.2 hkey), List.lookup_cons, List.lookup_cons,
          beq_false_of_ne hne, beq_false_of_ne hne', ih]
      · rw [if_neg fun h => hkey (List.isPrefixOf_iff_prefix.1 h), List.lookup_cons,
          List.lookup_cons, ih]

/-- Two disks agree outside a place and what is below it. -/
structure AgreesOutside (base : Key) (d d' : Disk) : Prop where
  workingDir : d'.workingDir = d.workingDir
  elsewhere : ∀ k, ¬ base <+: k → d'.entry? k = d.entry? k

namespace AgreesOutside

theorem refl (base : Key) (d : Disk) : AgreesOutside base d d := ⟨rfl, fun _ _ => rfl⟩

theorem trans (h : AgreesOutside base d d') (h' : AgreesOutside base d' d'') :
    AgreesOutside base d d'' :=
  ⟨h'.workingDir.trans h.workingDir, fun k hk => (h'.elsewhere k hk).trans (h.elsewhere k hk)⟩

theorem of_filesDiffer {key : Key} (h : FilesDiffer {key} d d') (hkey : base <+: key) :
    AgreesOutside base d d' := by
  refine ⟨h.workingDir, fun k hk => h.elsewhere k ?_⟩
  rw [Set.mem_singleton_iff]
  rintro rfl
  exact hk hkey

theorem update {content : Option String → String} (hpath : base <+: d.placeOf path)
    (h : d.update path content = .ok d') : AgreesOutside base d d' :=
  of_filesDiffer (lookAt_update h).1 hpath

theorem discard (hpath : base <+: d.placeOf path) (h : d.discard path = .ok d') :
    AgreesOutside base d d' :=
  of_filesDiffer (lookAt_discard h).1 hpath

theorem move {source target : Key} {slash : Bool} (hs : base <+: source) (ht : base <+: target)
    (h : d.move source target slash = .ok d') : AgreesOutside base d d' := by
  rcases move_cases h with ⟨-, -, rfl⟩ | ⟨-, htarget, content, -, rfl⟩ | ⟨-, -, rfl⟩
  · exact refl base d'
  · refine ⟨rfl, fun k hk => ?_⟩
    have hks : k ≠ source := fun heq => hk (heq ▸ hs)
    have hkt : k ≠ target := fun heq => hk (heq ▸ ht)
    rw [entry?_put _ (ne_nil_of_entry?_ne htarget), if_neg hkt, entry?_erase_of_ne d hks]
  · refine ⟨rfl, fun k hk => ?_⟩
    have hkt : k ≠ target := fun heq => hk (heq ▸ ht)
    rw [entry?_moveAll_of_not_below _ (fun hp => hk (hs.trans hp))
      (fun hp => hk (ht.trans hp)), entry?_erase_of_ne d hkt]

theorem rename {source target : String} (hs : base <+: d.placeOf source)
    (ht : base <+: d.placeOf target) (h : d.rename source target = .ok d') :
    AgreesOutside base d d' := by
  obtain ⟨slash, slash', -, -, hmove⟩ := rename_eq_ok h
  exact move hs ht hmove

end AgreesOutside

/-- An action changes a disk at or below a place only, whether it fails or not. -/
def Action.Confined {α : Type} (base : Key) (m : Action α) : Prop :=
  ∀ d, AgreesOutside base d (m d).2

namespace Action.Confined

variable {α β : Type}

theorem pure (a : α) : Confined base (Pure.pure a) := fun d => AgreesOutside.refl base d

theorem of {operation : Disk → Except Fault Disk}
    (h : ∀ d d', operation d = .ok d' → AgreesOutside base d d') :
    Confined base (Action.of operation) := by
  intro d
  rw [of_apply]
  cases hop : operation d with
  | ok d' => exact h d d' hop
  | error e => exact AgreesOutside.refl base d

theorem bind {m : Action α} {f : α → Action β} (hm : Confined base m)
    (hf : ∀ a, Confined base (f a)) : Confined base (m >>= f) := by
  intro d
  have hd := hm d
  rw [bind_apply]
  rcases h : m d with ⟨_ | a, d'⟩ <;> rw [h] at hd
  · exact hd
  · exact hd.trans (hf a d')

theorem get_bind {f : Disk → Action α} (hf : ∀ d, Confined base (f d)) :
    Confined base (get >>= f) := fun d => hf d d

theorem forM {f : α → Action Unit} {as : List α} (hf : ∀ a ∈ as, Confined base (f a)) :
    Confined base (as.forM f) := by
  induction as with
  | nil => exact pure ()
  | cons a as ih =>
    exact (hf a List.mem_cons_self).bind fun _ => ih fun b hb => hf b (List.mem_cons_of_mem _ hb)

end Action.Confined

end Disk

namespace Log

open Disk (Key AgreesOutside pathOf)
open Disk.Action (Confined)

namespace Rotation

variable {r : Rotation} {base : Key} {m : Nat}

/-- A rotation of so many files with a proper name in the directory at a place. -/
structure IsIn (base : Key) (m : Nat) (r : Rotation) : Prop where
  isPlain : Path.IsPlain base
  directory : r.directory = pathOf base
  isName : Path.IsName r.fileName.toList
  noSlash : '/' ∉ r.fileName.toList
  maxFiles : r.maxFiles = .int (m + 1 : Nat)
  isExact : m ≤ Number.twoTo 53

namespace IsIn

theorem prefix_rotated (h : r.IsIn base m) (d : Disk) (i : Nat) :
    base <+: d.placeOf (Path.join r.directory (r.rotatedName i)) := by
  rw [placeOf_rotated h.noSlash, h.directory, Disk.placeOf_pathOf d h.isPlain]
  exact List.prefix_append _ _

theorem prefix_active (h : r.IsIn base m) (d : Disk) : base <+: d.placeOf r.activePath := by
  rw [activePath, Disk.placeOf, Path.segments_join _ _ (Path.isAbsolute_of_notMem h.noSlash),
    Path.walk_of_isName h.isName h.noSlash, ← Disk.placeOf, h.directory,
    Disk.placeOf_pathOf d h.isPlain]
  exact List.prefix_append _ _

theorem prefix_logPath (h : r.IsIn base m) (d : Disk) (i : Nat) :
    base <+: d.placeOf (r.logPath i) := by
  unfold logPath
  split
  · exact h.prefix_active d
  · exact h.prefix_rotated d i

theorem confined_advance (h : r.IsIn base m) {i : Nat} (hi : i < m) :
    Confined base (r.advance (.int i)) := by
  have hexact := h.isExact
  have hnext : (Number.int i).addInt 1 = .int ((i + 1 : Nat) : Int) :=
    Number.addInt_int (by omega)
  unfold advance
  rw [pathAt_int (by omega), hnext, rotatedPath_int (by omega)]
  refine Confined.get_bind fun d => ?_
  split
  · exact Confined.of fun d d' hop =>
      AgreesOutside.rename (h.prefix_logPath d i) (h.prefix_rotated d (i + 1)) hop
  · exact Confined.pure ()

end IsIn

theorem mem_countdown {k : Nat} {x : Number} (hk : k ≤ Number.twoTo 53)
    (h : x ∈ countdown (.int (k - 1 : Nat)) k) : ∃ i, i < k ∧ x = .int (i : Nat) := by
  induction k with
  | zero => exact absurd h List.not_mem_nil
  | succ k ih =>
    rw [Nat.add_sub_cancel, countdown_int (by omega)] at h
    rcases List.mem_cons.1 h with rfl | h
    · exact ⟨k, by omega, rfl⟩
    · obtain ⟨i, hi, rfl⟩ := ih (by omega) h
      exact ⟨i, by omega, rfl⟩

namespace IsIn

theorem confined_rotate (h : r.IsIn base m) : Confined base r.rotate := by
  have hlast : r.rotatedPath r.lastIndex = Path.join r.directory (r.rotatedName m) := by
    rw [lastIndex_int h.maxFiles h.isExact, rotatedPath_int h.isExact]
  unfold rotate
  rw [hlast, moving_int h.maxFiles h.isExact]
  refine Confined.get_bind fun d => ?_
  split
  · refine Confined.bind (Confined.of fun d d' hop => ?_) fun _ => Confined.forM fun x hx => ?_
    · exact AgreesOutside.discard (h.prefix_rotated d m) hop
    · obtain ⟨i, hi, rfl⟩ := mem_countdown h.isExact hx
      exact h.confined_advance hi
  · exact Confined.pure ()

theorem confined_append (h : r.IsIn base m) (entry : String) : Confined base (r.append entry) :=
  h.confined_rotate.bind fun _ => Confined.of fun d _ hop =>
    AgreesOutside.update (h.prefix_active d) hop

/-- Writing entries leaves the disk as it is outside the directory of the log files. -/
theorem agreesOutside_writeAll (h : r.IsIn base m) (entries : List String) (d : Disk) :
    AgreesOutside base d (Logger.writeAll r entries d).1 := by
  induction entries generalizing d with
  | nil => exact AgreesOutside.refl base d
  | cons entry entries ih =>
    have hentry : (Logger.writeEntry r entry d).1 = (r.append entry d).2 := by
      unfold Logger.writeEntry
      rcases r.append entry d with ⟨_ | _, d'⟩ <;> rfl
    have hfirst := h.confined_append entry d
    rw [← hentry] at hfirst
    rw [Logger.writeAll]
    exact hfirst.trans (ih (Logger.writeEntry r entry d).1)

end IsIn

theorem isName_defaultFileName : Path.IsName defaultFileName.toList := by
  constructor <;> decide

theorem isIn_standard {base : Key} (hplain : Path.IsPlain base) :
    IsIn base 2 (Config.standard.rotation (pathOf base)) where
  isPlain := hplain
  directory := rfl
  isName := isName_defaultFileName
  noSlash := show '/' ∉ defaultFileName.toList by decide
  maxFiles := rfl
  isExact := by decide

end Rotation
end Log
end Marginalia
