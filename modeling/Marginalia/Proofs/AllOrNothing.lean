import Marginalia.Proofs.AtomicWrite
import Marginalia.Proofs.Delivery

/-!
# All or nothing

A run that annotates a source gives out the whole result or none of it, and the
two ways to give it out agree: what is printed without an output file is what an
output file holds. If a run fails, nothing was printed and the disk is as it was,
with two exceptions: the directories above the output file may have been made,
though on a tree only where the path of the temporary file does not fit, and a
file that had the temporary name may be gone.
-/

namespace Marginalia
namespace CommandLine

open Session
open Disk (Key pathOf tempPlace GrowsAlong)

variable {host : Host} {d : Disk} {globals locals : List Given} {input output : String}

/-- A result is what a source comes to: the source at a path was read and parsed, and its comments
were attached to its outline by the settings in force. -/
structure Annotated.IsOf (host : Host) (globals locals : List Given) (input : String) (d : Disk)
    (a : Annotated) : Prop where
  settings : settingsOf host d (valueOf? "config" globals) (overridesOf locals) = .ok a.settings
  supported : Grammar.supports input = true
  loaded : loadResult host d = .ok ()
  outline : ∃ source root, d.read (host.place.resolve input) = .ok source ∧
    host.library.parse source = .ok (some root) ∧ root.firstFault? = none ∧
    Annotation.annotate a.settings.annotation (Outline.build root source) source =
      (a.outline, a.stats)

theorem hasPath_of_read {path text : String} (h : d.read path = .ok text) :
    d.hasPath path = true := by
  unfold Disk.read at h
  unfold Disk.hasPath
  cases hlocate : d.locate path with
  | ok x => rfl
  | error cause => simp [hlocate] at h

theorem sourceAt_eq_ok_iff {source : String} :
    sourceAt host d input = .ok source ↔ d.read (host.place.resolve input) = .ok source := by
  unfold sourceAt
  cases hread : d.read (host.place.resolve input) with
  | ok text => simp [hasPath_of_read hread, Except.mapError]
  | error e => cases d.hasPath (host.place.resolve input) <;> simp [Except.mapError]

theorem bind_eq_ok_iff {ε α β : Type} {x : Except ε α} {f : α → Except ε β} {b : β} :
    x >>= f = .ok b ↔ ∃ a, x = .ok a ∧ f a = .ok b := by
  cases x <;> simp [bind, Except.bind]

theorem prepared_eq_ok_iff {a : Annotated} :
    prepared host globals locals input d = .ok a ↔ a.IsOf host globals locals input d := by
  unfold prepared
  constructor
  · intro h
    obtain ⟨settings, hsettings, h⟩ := bind_eq_ok_iff.1 h
    obtain ⟨source, hsource, h⟩ := bind_eq_ok_iff.1 h
    obtain ⟨built, hbuilt, h⟩ := bind_eq_ok_iff.1 h
    obtain ⟨hsupported, hloaded, root, hparse, hfault, rfl⟩ := outlineWith_eq_ok_iff.1 hbuilt
    cases h
    exact ⟨hsettings, hsupported, hloaded, source, root, sourceAt_eq_ok_iff.1 hsource, hparse,
      hfault, rfl⟩
  · rintro ⟨hsettings, hsupported, hloaded, source, root, hread, hparse, hfault, hannotate⟩
    have hbuilt := outlineWith_eq_ok_iff.2 ⟨hsupported, hloaded, root, hparse, hfault, rfl⟩
    refine bind_eq_ok_iff.2 ⟨a.settings, hsettings, bind_eq_ok_iff.2
      ⟨source, sourceAt_eq_ok_iff.2 hread, bind_eq_ok_iff.2 ⟨_, hbuilt, ?_⟩⟩⟩
    rw [hannotate]
    rfl

theorem Annotated.IsOf.unique {a b : Annotated} (ha : a.IsOf host globals locals input d)
    (hb : b.IsOf host globals locals input d) : a = b :=
  Except.ok.inj ((prepared_eq_ok_iff.2 ha).symm.trans (prepared_eq_ok_iff.2 hb))

/-- A place on the way to the directory for log files, or that directory. -/
def LeadsToLogs (host : Host) (globals : List Given) (k : Key) : Prop :=
  ∃ base, logPlace? host globals = some base ∧ k <+: base

theorem entry?_withLogs (host : Host) (globals : List Given) (d : Disk) (k : Key) :
    Disk.entry? (withLogs host globals d) k = d.entry? k ∨
      d.entry? k = none ∧ Disk.entry? (withLogs host globals d) k = some .directory ∧
        LeadsToLogs host globals k := by
  unfold withLogs
  rcases hplace : logPlace? host globals with _ | base
  · exact .inl rfl
  · obtain ⟨hgrows, -⟩ := Disk.makeDirs_grows (isPlain_of_logPlace? hplace) d
    rcases hgrows.entries k with heq | ⟨hk, hnone, hdir⟩
    · exact .inl heq
    · exact .inr ⟨hnone, hdir, base, hplace, hk⟩

theorem isTree_withLogs (h : d.IsTree) : (withLogs host globals d).IsTree := by
  unfold withLogs
  rcases hplace : logPlace? host globals with _ | base
  · exact h
  · obtain ⟨-, htree⟩ := Disk.makeDirs_grows (isPlain_of_logPlace? hplace) d
    exact htree h

theorem effectOf_of_isOf {a : Annotated} (h : a.IsOf host globals locals input d)
    (output : Option String) :
    effectOf host globals locals input output d = a.delivered host output d := by
  rw [effectOf, prepared_eq_ok_iff.2 h, effectFrom]

theorem effectOf_none_cases (host : Host) (globals locals : List Given) (input : String)
    (d : Disk) :
    (∃ a : Annotated, a.IsOf host globals locals input d ∧
      effectOf host globals locals input none d =
        { succeeds := true, printed := a.text ++ "\n", disk := d }) ∨
    (¬ ∃ a : Annotated, a.IsOf host globals locals input d) ∧
      effectOf host globals locals input none d =
        { succeeds := false, printed := "", disk := d } := by
  rcases hprepared : prepared host globals locals input d with e | a
  · refine .inr ⟨?_, ?_⟩
    · rintro ⟨a, ha⟩
      rw [prepared_eq_ok_iff.2 ha] at hprepared
      cases hprepared
    · rw [effectOf, hprepared, effectFrom]
  · have ha := prepared_eq_ok_iff.1 hprepared
    exact .inl ⟨a, ha, effectOf_of_isOf ha none⟩

namespace Shows

variable {r : Result} {e : Effect}

theorem exitCode_eq_zero_iff (h : Shows host globals r e) : r.exitCode = 0 ↔ e.succeeds = true := by
  rw [h.exitCode]
  cases e.succeeds <;> simp

theorem exitCode_eq_one_iff (h : Shows host globals r e) : r.exitCode = 1 ↔ e.succeeds = false := by
  rw [h.exitCode]
  cases e.succeeds <;> simp

end Shows

/-- An argument that does not begin with a dash. -/
def IsOperand (arg : String) : Prop := arg.toList.head? ≠ some '-'

instance (arg : String) : Decidable (IsOperand arg) := inferInstanceAs (Decidable (_ ≠ _))

theorem readingOf_of_isOperand (flags : List Flag) {arg : String} (h : IsOperand arg) :
    readingOf flags arg = .operand := by
  unfold readingOf
  split_ifs with hdashes
  · subst hdashes
    exact absurd rfl h
  · split
    · rename_i hlist
      exact absurd (by rw [hlist]; rfl) h
    · rfl

theorem sortFrom_of_isOperand (flags : List Flag) {args : List String}
    (hargs : ∀ arg ∈ args, IsOperand arg) {n : Nat} (hn : args.length ≤ n)
    (operands : List String) :
    sortFrom flags n { given := [], operands, unknown := [] } args =
      .ok { given := [], operands := operands ++ args, unknown := [] } := by
  induction args generalizing n operands with
  | nil => simp [sortFrom]
  | cons arg args ih =>
    obtain ⟨n, rfl⟩ : ∃ m, n = m + 1 := Nat.exists_eq_add_one.2 (by simp at hn; omega)
    have hread := readingOf_of_isOperand flags (hargs arg List.mem_cons_self)
    have hrest := ih (fun a ha => hargs a (List.mem_cons_of_mem _ ha)) (Nat.le_of_succ_le_succ hn)
      (operands ++ [arg])
    rw [List.append_assoc] at hrest
    rw [sortFrom, hread]
    exact hrest

theorem length_le_weight (args : List String) : args.length ≤ weight args := by
  induction args with
  | nil => exact Nat.le_refl 0
  | cons arg args ih =>
    rw [List.length_cons, weight]
    omega

theorem request_annotate {input : String} {others : List String}
    (h : ∀ arg ∈ input :: others, IsOperand arg) :
    request program ("annotate" :: input :: others) =
      .run Task.annotate.command [] [] (input :: others) := by
  have hargs : ∀ arg ∈ "annotate" :: input :: others, IsOperand arg := by
    intro arg harg
    rcases List.mem_cons.1 harg with rfl | harg
    · decide
    · exact h arg harg
  have hsort := sortFrom_of_isOperand program.flags hargs (length_le_weight _) []
  have hcommand : program.command? "annotate" = some Task.annotate.command := by decide
  rw [request, sort, Sorted.empty, hsort]
  dsimp only [List.nil_append]
  rw [hcommand]
  dsimp only
  have hrest : sort Task.annotate.command.flags [] = .ok .empty := rfl
  have hmissing : missing? Task.annotate.command.arguments (input :: others) = none := by
    cases others <;> rfl
  simp [requestOf, hrest, Sorted.empty, asksForHelp, hmissing]

/-- What can be different at a place after a run has failed: directories were made on the way to
the log files; directories were made above the output file, and the path of its temporary file does
not fit or the disk was no tree; or a file that had the temporary name is gone. -/
inductive Remains (host : Host) (globals : List Given) (key : Key) (d d' : Disk) (k : Key) : Prop
  | onTheWay (hnone : d.entry? k = none) (hdir : d'.entry? k = some .directory)
      (hlogs : LeadsToLogs host globals k)
  | above (hnone : d.entry? k = none) (hdir : d'.entry? k = some .directory)
      (hk : k <+: key.dropLast)
      (hnot : ¬ (d.IsTree ∧ Disk.Fits (pathOf (tempPlace host.tag key))))
  | temporary (hk : k = tempPlace host.tag key)
      (hfile : ∃ content, d.entry? k = some (.file content)) (hgone : d'.entry? k = none)

variable {d' : Disk} {key k : Key}

theorem remains_of_withLogs (h : d'.entry? k = Disk.entry? (withLogs host globals d) k) :
    d'.entry? k = d.entry? k ∨ Remains host globals key d d' k := by
  rcases entry?_withLogs host globals d k with heq | ⟨hnone, hdir, hlogs⟩
  · exact .inl (h.trans heq)
  · exact .inr (.onTheWay hnone (h.trans hdir) hlogs)

theorem remains_of_writeAtomic_error {e : Disk.Fault} {content : String} {written : Disk}
    (hplain : Path.IsPlain key) (htag : '/' ∉ host.tag.toList)
    (hwrite : Disk.writeAtomic host.tag (pathOf key) content (withLogs host globals d) =
      (.error e, written)) (h : d'.entry? k = written.entry? k) :
    d'.entry? k = d.entry? k ∨ Remains host globals key d d' k := by
  have hbefore : Disk.entry? (withLogs host globals d) k ≠ some .directory →
      d.entry? k = Disk.entry? (withLogs host globals d) k := fun hne => by
    rcases entry?_withLogs host globals d k with heq | ⟨-, hdir, -⟩
    · exact heq.symm
    · exact absurd hdir hne
  rcases Disk.writeAtomic_error_cases hplain htag hwrite k with
    heq | ⟨habove, hnone, hdir, hnot⟩ | ⟨hk, ⟨content, hfile⟩, hgone⟩
  · exact remains_of_withLogs (h.trans heq)
  · refine .inr (.above ?_ (h.trans hdir) habove fun hnice => hnot ?_)
    · rw [hbefore (by simp [hnone]), hnone]
    · exact ⟨isTree_withLogs hnice.1, hnice.2⟩
  · refine .inr (.temporary hk ⟨content, ?_⟩ (h.trans hgone))
    rw [hbefore (by simp [hfile]), hfile]

/-- A command that fails leaves next to nothing behind. -/
theorem remains_of_not_succeeds (htag : '/' ∉ host.tag.toList) {globals locals : List Given}
    (hfails : (effectOf host globals locals input (some output)
      (withLogs host globals d)).succeeds = false)
    (h : d'.entry? k = (effectOf host globals locals input (some output)
      (withLogs host globals d)).disk.entry? k) :
    d'.entry? k = d.entry? k ∨ Remains host globals (host.place.keyOf output) d d' k := by
  rw [effectOf] at hfails h
  cases hprepared : prepared host globals locals input (withLogs host globals d) with
  | error e =>
    rw [hprepared] at h
    exact remains_of_withLogs h
  | ok a =>
    rw [hprepared] at hfails h
    rcases hwrite : Disk.writeAtomic host.tag (pathOf (host.place.keyOf output)) (a.text ++ "\n")
      (withLogs host globals d) with ⟨e | _, written⟩
    · rw [effectFrom, Annotated.delivered, hwrite] at h
      exact remains_of_writeAtomic_error (host.place.isPlain_keyOf output) htag hwrite h
    · rw [effectFrom, Annotated.delivered, hwrite] at hfails
      cases hfails

/-- Where the output file can be written, a command leaves in it what it prints without one. -/
theorem delivered_of_writable (htag : '/' ∉ host.tag.toList) (a : Annotated)
    (h : d.Writable host.tag (host.place.keyOf output)) :
    let key := host.place.keyOf output
    let e := a.delivered host (some output) d
    e.succeeds = true ∧ e.disk.entry? key = some (.file (a.delivered host none d).printed) ∧
      (∀ k, k <+: key → k ≠ key → e.disk.entry? k = some .directory) ∧
      ∀ k, ¬ k <+: key → e.disk.entry? k = d.entry? k := by
  have hplain := host.place.isPlain_keyOf output
  obtain ⟨d', hwrite, hrest⟩ := Disk.writeAtomic_of_writable hplain htag h (a.text ++ "\n")
  rw [Annotated.delivered, Annotated.delivered, hwrite]
  exact ⟨rfl, hrest⟩

theorem IsElsewhere.above (h : IsElsewhere host globals key) (hk : k <+: key) :
    IsElsewhere host globals k :=
  fun base hplace hbase => h base hplace (hbase.trans hk)

/-- The two ways to give out a result, on one disk: `printed` is a run without an output file, and
`written` a run with the output file at a place. -/
structure AllOrNothing (host : Host) (d : Disk) (globals locals : List Given) (input : String)
    (key : Key) (printed written : Result) : Prop where
  /-- A run that fails prints nothing. -/
  nothing_printed : printed.exitCode = 1 → printed.output = ""
  /-- A run that fails leaves everything outside the directory for log files as it was, except for
  what can remain of directories and of a file with the temporary name. -/
  nothing_written : written.exitCode = 1 → ∀ k, IsElsewhere host globals k →
    written.disk.entry? k = d.entry? k ∨ Remains host globals key d written.disk k
  /-- A run succeeds exactly if there is a result of the source. -/
  succeeds_iff : printed.exitCode = 0 ↔
    ∃ a : Annotated, a.IsOf host globals locals input (withLogs host globals d)
  /-- The text of the result is printed with a newline. -/
  all_printed : ∀ a : Annotated, a.IsOf host globals locals input (withLogs host globals d) →
    printed.output = a.outline.toText a.settings.format ++ "\n"
  /-- If a run without an output file succeeds, one with an output file that can be written leaves
  the same text in it, in directories, and everything else as it was. -/
  all_written : printed.exitCode = 0 → (withLogs host globals d).Writable host.tag key →
    IsElsewhere host globals key →
      written.exitCode = 0 ∧ written.disk.entry? key = some (.file printed.output) ∧
      (∀ k, k <+: key → k ≠ key → written.disk.entry? k = some .directory) ∧
      ∀ k, IsElsewhere host globals k → ¬ k <+: key →
        written.disk.entry? k = d.entry? k ∨
          d.entry? k = none ∧ written.disk.entry? k = some .directory ∧ LeadsToLogs host globals k

/-- Annotating is all or nothing, and its two ways to give out the result agree. -/
theorem annotate_all_or_nothing (host : Host) (d : Disk) (htag : '/' ∉ host.tag.toList)
    {args args' others : List String}
    (hprint : request program args = .run Task.annotate.command globals locals [input])
    (hwrite : request program args' =
      .run Task.annotate.command globals locals (input :: output :: others)) :
    AllOrNothing host d globals locals input (host.place.keyOf output) (run host d args)
      (run host d args') := by
  have hprinted := run_shows host d hprint
  have hwritten := run_shows host d hwrite
  rw [List.head?_nil] at hprinted
  rw [List.head?_cons] at hwritten
  have hfailed : (run host d args').exitCode = 1 → ∀ k, IsElsewhere host globals k →
      (run host d args').disk.entry? k = d.entry? k ∨
        Remains host globals (host.place.keyOf output) d (run host d args').disk k := fun h1 k hk =>
    remains_of_not_succeeds htag (hwritten.exitCode_eq_one_iff.1 h1) (hwritten.entry? k hk)
  rcases effectOf_none_cases host globals locals input (withLogs host globals d) with
    ⟨a, ha, heffect⟩ | ⟨hnone, heffect⟩
  · rw [heffect] at hprinted
    rw [effectOf_of_isOf ha] at hwritten
    have hzero : (run host d args).exitCode = 0 := hprinted.exitCode_eq_zero_iff.2 rfl
    refine ⟨fun h1 => ?_, hfailed, ⟨fun _ => ⟨a, ha⟩, fun _ => hzero⟩, fun b hb => ?_, ?_⟩
    · cases hprinted.exitCode_eq_one_iff.1 h1
    · rw [← ha.unique hb]
      exact hprinted.output
    · intro _ hwritable helse
      obtain ⟨hok, hfile, hdirs, hother⟩ := delivered_of_writable htag a hwritable
      refine ⟨hwritten.exitCode_eq_zero_iff.2 hok, ?_, fun k hk hne => ?_, fun k hk hnot => ?_⟩
      · rw [hwritten.entry? _ helse, hfile, hprinted.output]
        rfl
      · rw [hwritten.entry? k (helse.above hk), hdirs k hk hne]
      · rw [hwritten.entry? k hk, hother k hnot]
        exact entry?_withLogs host globals d k
  · rw [heffect] at hprinted
    have hnot : (run host d args).exitCode ≠ 0 := fun h0 => by
      cases hprinted.exitCode_eq_zero_iff.1 h0
    exact ⟨fun _ => hprinted.output, hfailed, ⟨fun h0 => absurd h0 hnot, fun h => absurd h hnone⟩,
      fun a ha => absurd ⟨a, ha⟩ hnone, fun h0 => absurd h0 hnot⟩

/-- A host with a library that finds no items in a source. -/
def sampleHost : Host :=
  { place := ⟨"/work", "/home/user"⟩, environment := [], stamp := "", tag := "0.1", colour := false
    packageDir := "/pkg", executable := "/usr/bin/node"
    library :=
      { start := .ok (), load := fun _ => .ok ()
        parse := fun source => .ok (some (.mk "source_file" source ⟨.int 0, .int 0⟩ ⟨.int 0, .int 0⟩
          [] true none false false)) } }

/-- A disk with the library, an empty source, a directory, and a file of the temporary name beside
that directory. -/
def sampleDisk : Disk :=
  [("/pkg/node_modules/web-tree-sitter/tree-sitter.wasm", ""),
    ("/pkg/node_modules/tree-sitter-wasms/out/tree-sitter-rust.wasm", ""),
    ("/work/in.rs", ""), ("/work/out/", ""), ("/work/out.tmp.0.1", "kept")].foldl
      (fun d x => d.add x.1 x.2) (.bare "/work")

def sampleText : String := "\x7b\n  \"items\": []\n\x7d"

theorem sample_prepared :
    ∃ a : Annotated, a.IsOf sampleHost [] [] "in.rs" sampleDisk ∧ a.text = sampleText := by
  have htext : (prepared sampleHost [] [] "in.rs" sampleDisk).map Annotated.text =
    .ok sampleText := by decide +kernel
  cases hprepared : prepared sampleHost [] [] "in.rs" sampleDisk with
  | error e =>
    rw [hprepared] at htext
    cases htext
  | ok a =>
    rw [hprepared] at htext
    exact ⟨a, prepared_eq_ok_iff.1 hprepared, Except.ok.inj htext⟩

def sampleRun (output : String) : Result :=
  run sampleHost sampleDisk ["annotate", "in.rs", output]

theorem sample_shows {output : String} (h : IsOperand output) {r : Except Disk.Fault Unit}
    {d' : Disk}
    (hwrite : Disk.writeAtomic "0.1" (pathOf (sampleHost.place.keyOf output)) (sampleText ++ "\n")
      sampleDisk = (r, d')) :
    Shows sampleHost [] (sampleRun output)
      { succeeds := r.isOk, printed := "", disk := d' } := by
  obtain ⟨a, ha, htext⟩ := sample_prepared
  have hargs : ∀ arg ∈ ["in.rs", output], IsOperand arg := by
    intro arg harg
    rcases List.mem_pair.1 harg with rfl | rfl
    · decide
    · exact h
  have hshows := run_shows sampleHost sampleDisk (request_annotate hargs)
  have heffect : a.delivered sampleHost (some output) sampleDisk =
      { succeeds := r.isOk, printed := "", disk := d' } := by
    rw [← htext] at hwrite
    rw [Annotated.delivered]
    exact congrArg (fun w => { succeeds := w.1.isOk, printed := "", disk := w.2 : Effect }) hwrite
  rw [← heffect, ← effectOf_of_isOf ha]
  exact hshows

theorem sample_isElsewhere (k : Key) : IsElsewhere sampleHost [] k := fun _ h => nomatch h

/-- The two ways to give out the result of the sample: the output file and the directory above it
are new. -/
theorem annotate_all_or_nothing_nested :
    let args := ["annotate", "in.rs"]
    let args' := ["annotate", "in.rs", "n/out.json"]
    let key := sampleHost.place.keyOf "n/out.json"
    ('/' ∉ sampleHost.tag.toList ∧
        request program args = .run Task.annotate.command [] [] ["in.rs"] ∧
        request program args' = .run Task.annotate.command [] [] ["in.rs", "n/out.json"]) ∧
      AllOrNothing sampleHost sampleDisk [] [] "in.rs" key (run sampleHost sampleDisk args)
        (run sampleHost sampleDisk args') ∧
      (run sampleHost sampleDisk args).exitCode = 0 ∧ sampleDisk.Writable sampleHost.tag key ∧
      (run sampleHost sampleDisk args').disk.entry? key =
        some (.file (run sampleHost sampleDisk args).output) := by
  intro args args' key
  have htag : '/' ∉ sampleHost.tag.toList := by decide
  have hprint : request program args = .run Task.annotate.command [] [] ["in.rs"] :=
    request_annotate (by decide)
  have hwrite : request program args' = .run Task.annotate.command [] [] ["in.rs", "n/out.json"] :=
    request_annotate (by decide)
  have hall := annotate_all_or_nothing sampleHost sampleDisk htag hprint hwrite
  obtain ⟨a, ha, -⟩ := sample_prepared
  have hzero := hall.succeeds_iff.2 ⟨a, ha⟩
  have hwritable : sampleDisk.Writable sampleHost.tag key := by decide +kernel
  exact ⟨⟨htag, hprint, hwrite⟩, hall, hzero, hwritable,
    (hall.all_written hzero hwritable (sample_isElsewhere key)).2.1⟩

theorem toList_below (name : Path.Segment) :
    ("n/" ++ String.ofList name).toList = ['n'] ++ '/' :: name := by
  simp

theorem sample_keyOf_below {name : Path.Segment} (hname : Path.IsName name) (hslash : '/' ∉ name) :
    sampleHost.place.keyOf ("n/" ++ String.ofList name) =
      ["work".toList, "n".toList] ++ [name] := by
  have hfront : Path.segments "/work".toList ['n'] = ["work".toList, "n".toList] := by decide
  rw [Place.keyOf, toList_below, Path.segments_append_slash _ (by simp),
    Path.walk_of_isName hname hslash]
  exact congrArg (· ++ [name]) hfront

theorem sample_tooLong {name : Path.Segment} (hname : Path.IsName name)
    (hslash : '/' ∉ name) (hlong : Disk.isTooLong (name ++ Disk.mark "0.1") = true) :
    (sampleRun ("n/" ++ String.ofList name)).exitCode = 1 ∧
      sampleDisk.entry? ["work".toList, "n".toList] = none ∧
      (sampleRun ("n/" ++ String.ofList name)).disk.entry? ["work".toList, "n".toList] =
        some .directory := by
  have hkey := sample_keyOf_below hname hslash
  have hplain : Path.IsPlain (["work".toList, "n".toList] ++ [name]) := by
    rw [← hkey]
    exact sampleHost.place.isPlain_keyOf _
  have hplaces : ∀ k ∈ ["work".toList, "n".toList].inits,
      sampleDisk.entry? k = none ∨ sampleDisk.entry? k = some .directory := by decide +kernel
  have hfree : ∀ k, k <+: ["work".toList, "n".toList] → ∀ c,
      sampleDisk.entry? k ≠ some (.file c) := by
    intro k hk c
    rcases hplaces k ((List.mem_inits _ _).2 hk) with hother | hother <;> simp [hother]
  obtain ⟨e, d', hwrite, hdirs⟩ := Disk.writeAtomic_of_tooLong hplain
    (show '/' ∉ "0.1".toList by decide) (by decide) hfree hlong (sampleText ++ "\n")
  rw [← hkey] at hwrite
  have hoperand : IsOperand ("n/" ++ String.ofList name) := by
    rw [IsOperand, toList_below]
    simp
  have hshows := sample_shows hoperand hwrite
  refine ⟨hshows.exitCode, by decide +kernel, ?_⟩
  rw [hshows.entry? _ (sample_isElsewhere _), hdirs _ List.prefix_rfl]

theorem sample_temporary :
    (sampleRun "out").exitCode = 1 ∧
      sampleDisk.entry? ["work".toList, "out.tmp.0.1".toList] = some (.file "kept") ∧
      (sampleRun "out").disk.entry? ["work".toList, "out.tmp.0.1".toList] = none := by
  have hevaluated : (fun w => (w.1.isOk, Disk.entry? w.2 ["work".toList, "out.tmp.0.1".toList]))
      (Disk.writeAtomic "0.1" (pathOf (sampleHost.place.keyOf "out")) (sampleText ++ "\n")
        sampleDisk) = (false, none) := by decide +kernel
  rcases hwrite : Disk.writeAtomic "0.1" (pathOf (sampleHost.place.keyOf "out"))
    (sampleText ++ "\n") sampleDisk with ⟨r, d'⟩
  rw [hwrite] at hevaluated
  have hshows := sample_shows (by decide) hwrite
  have hfails : r.isOk = false := congrArg Prod.fst hevaluated
  have hgone : d'.entry? ["work".toList, "out.tmp.0.1".toList] = none :=
    congrArg Prod.snd hevaluated
  refine ⟨hshows.exitCode_eq_one_iff.2 hfails, by decide +kernel, ?_⟩
  rw [hshows.entry? _ (sample_isElsewhere _), hgone]

/-- Runs that fail can leave traces. With a name that is too long for the output file, the
directory above it is new afterwards; with a directory in place of the output file, a file that had
the temporary name is gone. -/
theorem failed_run_leaves_traces :
    ((sampleRun ("n/" ++ String.ofList (List.replicate 256 'a'))).exitCode = 1 ∧
        sampleDisk.entry? ["work".toList, "n".toList] = none ∧
        (sampleRun ("n/" ++ String.ofList (List.replicate 256 'a'))).disk.entry?
          ["work".toList, "n".toList] = some .directory) ∧
      (sampleRun "out").exitCode = 1 ∧
        sampleDisk.entry? ["work".toList, "out.tmp.0.1".toList] = some (.file "kept") ∧
        (sampleRun "out").disk.entry? ["work".toList, "out.tmp.0.1".toList] = none := by
  have hslash : '/' ∉ List.replicate 256 'a' := fun h =>
    absurd (List.eq_of_mem_replicate h) (by decide)
  have hname : Path.IsName (List.replicate 256 'a') := ⟨by decide +kernel, by decide +kernel⟩
  exact ⟨sample_tooLong hname hslash (by decide +kernel), sample_temporary⟩

end CommandLine
end Marginalia
