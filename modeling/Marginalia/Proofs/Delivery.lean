import Marginalia.Proofs.Confinement
import Marginalia.Proofs.NormalForm
import Marginalia.Proofs.Stages

/-!
# What a run that annotates leaves behind

Such a run sets up its log files, goes through the stages, gives out the result,
and writes its log files. What it leaves behind is told without a session: the
exit code and the output console exactly, and the disk up to the directory of
the log files.
-/

namespace Marginalia

theorem Json.getLast?_write_obj (style : Json.Style) (ms : Json.Members) :
    (Json.write style (.obj ms)).getLast? = some '}' := by
  rcases ms with _ | ⟨⟨name, v⟩, ms⟩
  · simp [Json.write]
  · rw [Json.write, ← List.cons_append, List.getLast?_concat]

theorem Outline.endsWith_toText (format : Outline.Format) (f : Outline) :
    Text.endsWith "\n" (f.toText format) = false := by
  rw [← Bool.not_eq_true, Text.endsWith, List.isSuffixOf_iff_suffix]
  rintro ⟨front, h⟩
  have hlast : (front ++ "\n".toList).getLast? = some '\n' := List.getLast?_concat
  rw [h, Outline.toText, Json.render, String.toList_ofList, Outline.toJson,
    Json.getLast?_write_obj] at hlast
  exact absurd hlast (by decide)

theorem Outline.endingInNewline_toText (format : Outline.Format) (f : Outline) :
    Disk.endingInNewline (f.toText format) = f.toText format ++ "\n" := by
  rw [Disk.endingInNewline, Outline.endsWith_toText]
  rfl

namespace Log.Logger

variable {l : Logger} {d : Disk}

theorem disk_flush_of_console (h : l.rotation? = none) : (l.flush d).2.1 = d := by
  obtain ⟨threshold, _ | ⟨r, queue⟩⟩ := l
  · rfl
  · cases h

theorem agreesOutside_flush {r : Rotation} {base : Disk.Key} {m : Nat} (h : l.rotation? = some r)
    (hin : r.IsIn base m) : Disk.AgreesOutside base d (l.flush d).2.1 := by
  obtain ⟨threshold, _ | ⟨r', queue⟩⟩ := l
  · cases h
  · cases h
    exact hin.agreesOutside_writeAll queue d

end Log.Logger

namespace Session

variable {host : Host} {s s' : State} {d : Disk}

theorem runOn_onDisk {α : Type} (host : Host) (s : State) (action : Disk.Action α) :
    runOn host s (onDisk action) =
      ((action s.disk).1.mapError .disk, { s with disk := (action s.disk).2 }) := by
  rw [onDisk, runOn_bind_ok runOn_get]
  rcases action s.disk with ⟨_ | _, d⟩ <;> rfl

/-- An output file is written in one step, and what keeps it from being written becomes the failure
to write it. -/
theorem runOn_writeOutput (host : Host) (s : State) {path content : String}
    {r : Except Disk.Fault Unit} {d' : Disk}
    (h : Disk.writeAtomic host.tag path (Disk.endingInNewline content) s.disk = (r, d')) :
    ∃ s', runOn host s (writeOutput path content) =
        (r.mapError fun e => .failure (.writeFailed path e.kind e.message), s') ∧
      s'.lasting = (d', s.output, s.rotation?) := by
  have hwrite : runOn host s (writeAtomic path (Disk.endingInNewline content)) =
      (r.mapError .disk, { s with disk := d' }) := by
    rw [writeAtomic, runOn_bind_ok runOn_read, runOn_onDisk, h]
  rw [writeOutput, runOn_tryCatch, hwrite]
  cases r with
  | error e =>
    let f : Failure := .writeFailed path e.kind e.message
    obtain ⟨s', hfail, hsame⟩ := ends_fail (α := Unit) host { s with disk := d' } f
    refine ⟨s', ?_, State.lasting_eq_of_unlogged hsame⟩
    dsimp only [Except.mapError]
    rw [runOn_bind_ok runOn_read]
    exact hfail
  | ok =>
    dsimp only [Except.mapError]
    exact ⟨_, rfl, rfl⟩

theorem gives_setThreshold (host : Host) (s : State) (threshold : Number) :
    Gives host s (setThreshold threshold) () := by
  obtain ⟨l, s₁, hlogger, hsame, hl⟩ := runOn_activeLogger host s
  refine Ends.after hlogger hsame (Ends.modify ?_)
  obtain ⟨_, sink⟩ := l
  simp only [State.unlogged, State.unused, State.rotation?, hl]
  rfl

theorem rotation?_eq_of_unlogged (h : s'.unlogged = s.unlogged) : s'.rotation? = s.rotation? :=
  congrArg (fun v => v.1.2.2.2) h

/-- Written log entries change the directory of the log files only. -/
theorem runOn_flush (host : Host) (s : State) :
    ∃ s', runOn host s flush = (.ok (), s') ∧ s'.output = s.output ∧
      (s.rotation? = none → s'.disk = s.disk) ∧
      ∀ r base m, s.rotation? = some r → r.IsIn base m →
        Disk.AgreesOutside base s.disk s'.disk := by
  obtain ⟨l, s₁, hlogger, hsame, hl⟩ := runOn_activeLogger host s
  have hrotation : l.rotation? = s.rotation? := by
    rw [← rotation?_eq_of_unlogged hsame, State.rotation?, hl]
    rfl
  have hlasting := State.lasting_eq_of_unlogged hsame
  have hdisk : s₁.disk = s.disk := congrArg Prod.fst hlasting
  have houtput : s₁.output = s.output := congrArg (fun v => v.2.1) hlasting
  refine ⟨{ s₁ with
    logger := some (l.flush s₁.disk).1
    disk := (l.flush s₁.disk).2.1
    errors := s₁.errors ++ (l.flush s₁.disk).2.2 }, ?_, houtput, ?_, ?_⟩
  · rw [flush, runOn_bind_ok hlogger]
    rfl
  · intro hnone
    rw [← hdisk]
    exact Log.Logger.disk_flush_of_console (hrotation.trans hnone)
  · intro r base m hr hin
    rw [← hdisk]
    exact Log.Logger.agreesOutside_flush (hrotation.trans hr) hin

end Session

theorem Place.resolve_eq_pathOf (here : Place) (path : String) :
    here.resolve path = Disk.pathOf (here.keyOf path) := rfl

namespace CommandLine

open Session
open Disk (Key pathOf)

variable {host : Host} {s s' : State} {d : Disk} {globals locals : List Given} {input : String}

/-- The place of the directory for log files, if the options of the program ask for one. -/
def logPlace? (host : Host) (globals : List Given) : Option Key :=
  ((valueOf? "log-dir" globals).filter fun dir => !dir.isEmpty).map fun dir =>
    host.place.keyOf (host.place.expandTilde dir)

theorem logDirectory?_eq (host : Host) (globals : List Given) :
    logDirectory? host.place globals = (logPlace? host globals).map pathOf := by
  rw [logDirectory?, logPlace?, Option.map_map]
  rfl

theorem isPlain_of_logPlace? {base : Key} (h : logPlace? host globals = some base) :
    Path.IsPlain base := by
  obtain ⟨dir, -, rfl⟩ := Option.map_eq_some_iff.1 h
  exact host.place.isPlain_keyOf _

/-- A disk on which the directory for log files was made, as far as it can be. -/
def withLogs (host : Host) (globals : List Given) (d : Disk) : Disk :=
  match logPlace? host globals with
  | none => d
  | some base => (d.makeDirs (pathOf base)).2

/-- A session in which logging was set up on a disk, and nothing else happened. -/
structure IsSetUp (host : Host) (globals : List Given) (d : Disk) (s : State) : Prop where
  disk : s.disk = withLogs host globals d
  output : s.output = ""
  loader : s.loader = .idle
  rotation : ∀ r, s.rotation? = some r → ∃ base, logPlace? host globals = some base ∧ r.IsIn base 2

theorem IsSetUp.of_unlogged (h : IsSetUp host globals d s) (hsame : s'.unlogged = s.unlogged) :
    IsSetUp host globals d s' where
  disk := (State.disk_eq_of_unlogged hsame).trans h.disk
  output := (congrArg (fun v => v.1.2.1) hsame).trans h.output
  loader := (State.loader_eq_of_unlogged hsame).trans h.loader
  rotation r hr := h.rotation r ((rotation?_eq_of_unlogged hsame).symm.trans hr)

theorem forDirectory_pathOf (env : Environment) (base : Key) (d : Disk) :
    (Log.Logger.forDirectory env .standard (pathOf base) d).2.1 = (d.makeDirs (pathOf base)).2 ∧
      ∀ r, (Log.Logger.forDirectory env .standard (pathOf base) d).1.rotation? = some r →
        r = Log.Config.standard.rotation (pathOf base) := by
  unfold Log.Logger.forDirectory
  rw [Disk.isEmpty_pathOf]
  rcases d.makeDirs (pathOf base) with ⟨_ | _, d'⟩
  · exact ⟨rfl, fun r hr => nomatch hr⟩
  · exact ⟨rfl, fun r hr => (Option.some.inj hr).symm⟩

theorem runOn_setUpLogging (host : Host) (globals : List Given) (d : Disk) :
    ∃ s, runOn host (.fresh d) (setUpLogging globals) = (.ok (), s) ∧
      IsSetUp host globals d s := by
  have hrest : ∀ s, Gives host s
      (if isGiven "verbose" globals then setThreshold (Log.Level.threshold .debug) else pure ())
      () := by
    intro s
    split
    · exact gives_setThreshold host s _
    · exact Ends.pure ()
  rw [setUpLogging, runOn_bind_ok runOn_read, logDirectory?_eq]
  rcases hplace : logPlace? host globals with _ | base
  · obtain ⟨_, s₁, hlogger, hsame₁⟩ := gives_activeLogger host (.fresh d)
    obtain ⟨s₂, hrun, hsame₂⟩ := hrest s₁
    have hfresh : IsSetUp host globals d (.fresh d) :=
      ⟨by rw [withLogs, hplace]; rfl, rfl, rfl, fun r hr => nomatch hr⟩
    refine ⟨s₂, ?_, hfresh.of_unlogged (hsame₂.trans hsame₁)⟩
    dsimp only [Option.map_none]
    rw [runOn_bind_ok hlogger]
    exact hrun
  · obtain ⟨hdisk, hrotation⟩ := forDirectory_pathOf host.environment base d
    let made := Log.Logger.forDirectory host.environment .standard (pathOf base) d
    let s₁ : State :=
      { State.fresh d with logger := some made.1, disk := made.2.1, errors := "" ++ made.2.2 }
    have huse : runOn host (.fresh d) (useLogDirectory .standard (pathOf base)) =
      (.ok made.1, s₁) := rfl
    have hs₁ : IsSetUp host globals d s₁ := by
      refine ⟨?_, rfl, rfl, fun r hr => ?_⟩
      · rw [withLogs, hplace]
        exact hdisk
      · obtain rfl := hrotation r hr
        exact ⟨base, hplace, Log.Rotation.isIn_standard (isPlain_of_logPlace? hplace)⟩
    obtain ⟨s₂, hrun, hsame₂⟩ := hrest s₁
    refine ⟨s₂, ?_, hs₁.of_unlogged hsame₂⟩
    dsimp only [Option.map_some]
    rw [runOn_bind_ok huse]
    exact hrun

/-- What a command comes to: whether it succeeds, what it prints, and which disk it leaves. -/
structure Effect where
  succeeds : Bool
  printed : String
  disk : Disk

/-- A step comes to an effect, and the log files to write stay the same. -/
def HasEffect (host : Host) (s : State) (m : Session Unit) (e : Effect) : Prop :=
  ∃ r s', runOn host s m = (r, s') ∧ r.isOk = e.succeeds ∧
    s'.lasting = (e.disk, s.output ++ e.printed, s.rotation?)

/-- What giving out a result comes to, on a disk. -/
def Annotated.delivered (host : Host) (a : Annotated) (output : Option String) (d : Disk) :
    Effect :=
  match output with
  | none => { succeeds := true, printed := a.text ++ "\n", disk := d }
  | some path =>
    let written := Disk.writeAtomic host.tag (pathOf (host.place.keyOf path)) (a.text ++ "\n") d
    { succeeds := written.1.isOk, printed := "", disk := written.2 }

theorem gives_say (host : Host) (s : State) (line : Bool → String) : Gives host s (say line) () :=
  Ends.read.bind fun _ _ => Ends.modify rfl

theorem hasEffect_deliver (host : Host) (s : State) (a : Annotated) (output : Option String) :
    HasEffect host s (deliver a output) (a.delivered host output s.disk) := by
  cases output with
  | none => exact ⟨.ok (), _, rfl, rfl, rfl⟩
  | some path =>
    rcases hwrite : Disk.writeAtomic host.tag (pathOf (host.place.keyOf path)) (a.text ++ "\n")
      s.disk with ⟨written, d'⟩
    have heffect : a.delivered host (some path) s.disk =
        { succeeds := written.isOk, printed := "", disk := d' } := by
      rw [Annotated.delivered, hwrite]
    rw [Annotated.text, ← Outline.endingInNewline_toText, ← Annotated.text] at hwrite
    obtain ⟨s₁, hrun, hlasting⟩ := runOn_writeOutput host s hwrite
    rw [HasEffect, heffect, deliver, runOn_bind_ok runOn_read, Place.resolve_eq_pathOf, runOn_bind,
      hrun]
    cases written with
    | error e => exact ⟨_, s₁, rfl, rfl, by simp [hlasting]⟩
    | ok =>
      have hsay : Gives host s₁ (do
          say fun isOn => successLine isOn ("Wrote " ++ path)
          say fun isOn => infoLine isOn "Policy" a.settings.policy.name
          say fun isOn => infoLine isOn "Comments" (toString a.stats.comments)
          say fun isOn => infoLine isOn "Attached" (toString a.stats.tally.attached)
          say fun isOn => infoLine isOn "Residual" (toString a.stats.tally.residual)) () :=
        (gives_say host s₁ _).bind fun s₂ _ => (gives_say host s₂ _).bind fun s₃ _ =>
          (gives_say host s₃ _).bind fun s₄ _ => (gives_say host s₄ _).bind fun s₅ _ =>
            gives_say host s₅ _
      obtain ⟨s', hrest, hsame⟩ := hsay.lasting
      exact ⟨.ok (), s', hrest, rfl, by simp [hsame, hlasting]⟩

def effectFrom (host : Host) (output : Option String) (d : Disk) : Except Fault Annotated → Effect
  | .error _ => { succeeds := false, printed := "", disk := d }
  | .ok a => a.delivered host output d

/-- What a command that annotates a source comes to, on a disk. -/
def effectOf (host : Host) (globals locals : List Given) (input : String) (output : Option String)
    (d : Disk) : Effect :=
  effectFrom host output d (prepared host globals locals input d)

theorem hasEffect_runAnnotate (host : Host) (hidle : s.loader = .idle) (globals locals : List Given)
    (input : String) (output : Option String) :
    HasEffect host s (runAnnotate globals locals input output)
      (effectOf host globals locals input output s.disk) := by
  obtain ⟨s₁, hrun, hsame⟩ := ends_prepare host hidle globals locals input
  have hdisk : s₁.disk = s.disk := congrArg Prod.fst hsame
  have houtput : s₁.output = s.output := congrArg (fun v => v.2.1) hsame
  have hrotation : s₁.rotation? = s.rotation? := congrArg (fun v => v.2.2) hsame
  rw [HasEffect, runAnnotate_eq, runOn_bind, hrun, effectOf]
  cases prepared host globals locals input s.disk with
  | error e =>
    refine ⟨.error e, s₁, rfl, rfl, ?_⟩
    simp [effectFrom, State.lasting, hdisk, houtput, hrotation]
  | ok a =>
    obtain ⟨r, s₂, hdeliver, hok, hlasting⟩ := hasEffect_deliver host s₁ a output
    rw [hdisk] at hok hlasting
    rw [houtput, hrotation] at hlasting
    exact ⟨r, s₂, hdeliver, hok, hlasting⟩

theorem gives_reportFault (host : Host) (s : State) (e : Fault) :
    Gives host s (reportFault e) () := by
  refine Ends.read.bind fun s₁ _ => (gives_say host s₁ _).bind fun s₂ _ => ?_
  split
  · cases detailsOf host.place e with
    | some details => exact gives_say host s₂ _
    | none => exact Ends.pure ()
  · exact gives_say host s₂ _

/-- A place that is neither the directory for log files nor in it. -/
def IsElsewhere (host : Host) (globals : List Given) (k : Key) : Prop :=
  ∀ base, logPlace? host globals = some base → ¬ base <+: k

/-- A run shows an effect: by its exit code, on the output console, and on the disk where no log
files are. -/
structure Shows (host : Host) (globals : List Given) (r : Result) (e : Effect) : Prop where
  exitCode : r.exitCode = if e.succeeds then 0 else 1
  output : r.output = e.printed
  entry? : ∀ k, IsElsewhere host globals k → r.disk.entry? k = e.disk.entry? k

theorem runCommand_annotate (globals locals : List Given) (input : String) (others : List String) :
    runCommand Task.annotate.command globals locals (input :: others) =
      runAnnotate globals locals input others.head? := by
  have htask : Task.ofCommand? Task.annotate.command = some .annotate := by decide
  unfold runCommand
  rw [htask]

/-- The end of a run: a fault is reported, and the log files are written. -/
theorem runOn_runToEnd {c : Command} {arguments : List String} {r : Except Fault Unit}
    (h : runOn host s (do setUpLogging globals; runCommand c globals locals arguments) = (r, s'))
    (hrotation : ∀ r, s'.rotation? = some r →
      ∃ base, logPlace? host globals = some base ∧ r.IsIn base 2) :
    ∃ s₁, runOn host s (runToEnd c globals locals arguments) =
        (.ok (if r.isOk then 0 else 1), s₁) ∧
      s₁.output = s'.output ∧
      ∀ k, IsElsewhere host globals k → s₁.disk.entry? k = s'.disk.entry? k := by
  have hattempt : runOn host s (attempt do
      setUpLogging globals
      runCommand c globals locals arguments) = (.ok r, s') := by
    rw [runOn_attempt, h]
  have hreport : ∃ s₂, s₂.unlogged = s'.unlogged ∧ ∀ s₃, runOn host s₂ flush = (.ok (), s₃) →
      runOn host s (runToEnd c globals locals arguments) =
        (.ok (if r.isOk then 0 else 1), s₃) := by
    rw [runToEnd, runOn_bind_ok hattempt]
    cases r with
    | ok =>
      refine ⟨s', rfl, fun s₃ hflush => ?_⟩
      dsimp only
      rw [runOn_bind_ok (runOn_pure 0), runOn_bind_ok hflush]
      rfl
    | error e =>
      obtain ⟨s₂, hrun, hsame⟩ := gives_reportFault host s' e
      refine ⟨s₂, hsame, fun s₃ hflush => ?_⟩
      dsimp only
      rw [runOn_bind_ok hrun, runOn_bind_ok (runOn_pure 1), runOn_bind_ok hflush]
      rfl
  obtain ⟨s₂, hsame, hend⟩ := hreport
  obtain ⟨s₃, hflush, houtput, hconsole, hfiles⟩ := runOn_flush host s₂
  have hlasting := State.lasting_eq_of_unlogged hsame
  refine ⟨s₃, hend s₃ hflush, houtput.trans (congrArg (fun v => v.2.1) hlasting), fun k hk => ?_⟩
  have hdisk : s₂.disk = s'.disk := congrArg Prod.fst hlasting
  rw [← hdisk]
  rcases hr : s₂.rotation? with _ | r
  · rw [hconsole hr]
  · obtain ⟨base, hplace, hin⟩ := hrotation r ((rotation?_eq_of_unlogged hsame).symm.trans hr)
    exact (hfiles r base 2 hr hin).elsewhere k (hk base hplace)

/-- A run that annotates comes to the effect of its command on a disk with a directory for log
files. -/
theorem run_shows (host : Host) (d : Disk) {args others : List String}
    (h : request program args = .run Task.annotate.command globals locals (input :: others)) :
    Shows host globals (run host d args)
      (effectOf host globals locals input others.head? (withLogs host globals d)) := by
  obtain ⟨s₁, hsetup, hs₁⟩ := runOn_setUpLogging host globals d
  obtain ⟨r, s₂, hrun, hok, hlasting⟩ :=
    hasEffect_runAnnotate host hs₁.loader globals locals input others.head?
  rw [hs₁.disk, hs₁.output, String.empty_append] at hlasting
  rw [hs₁.disk] at hok
  have hcommand : runOn host (.fresh d) (do
      setUpLogging globals
      runCommand Task.annotate.command globals locals (input :: others)) = (r, s₂) := by
    rw [runOn_bind_ok hsetup, runCommand_annotate, hrun]
  have hrotation : s₂.rotation? = s₁.rotation? := congrArg (fun v => v.2.2) hlasting
  obtain ⟨s₃, hend, houtput, hdisk⟩ := runOn_runToEnd hcommand (hrotation ▸ hs₁.rotation)
  have hline : runOn host (.fresh d) (runLine args) = (.ok (if r.isOk then 0 else 1), s₃) := by
    rw [runLine, h]
    exact hend
  rw [run, hline]
  refine ⟨?_, ?_, fun k hk => ?_⟩
  · rw [← hok]
  · exact houtput.trans (congrArg (fun v => v.2.1) hlasting)
  · exact (hdisk k hk).trans (congrArg (fun v => Disk.entry? v.1 k) hlasting)

end CommandLine
end Marginalia
