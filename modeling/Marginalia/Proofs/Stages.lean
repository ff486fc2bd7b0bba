import Marginalia.CommandLine.Run
import Marginalia.Proofs.Loading

/-!
# The stages before a result

A source is annotated in stages: the settings are resolved, the source is read,
its outline is built, and the comments are attached. How each stage ends is told
by the disk and the surroundings of the session alone, and no stage changes what
outlasts the session: whatever fails, it fails before anything is given out.
-/

namespace Marginalia
namespace Session

variable {host : Host} {s s' : State} {d : Disk}

/-- How reading settings from a path ends. -/
def settingsAt (isRequired : Bool) (d : Disk) (path : String) : Except Fault Settings :=
  if !d.hasPath path then
    if isRequired then .error (.failure (.fileNotFound path)) else .ok .preferred
  else
    match Settings.readFile d path with
    | .ok settings => .ok settings
    | .error reason =>
      if isRequired then .error (.failure (.invalidConfig path reason.message)) else .ok .preferred

theorem ends_loadSettings (host : Host) (s : State) (isRequired : Bool) (path : String) :
    Ends State.unlogged host s (loadSettings isRequired path)
      (settingsAt isRequired s.disk path) := by
  obtain ⟨_, hlogger⟩ := gives_activeLogger host s
  refine hlogger.bind fun s₁ h₁ => Ends.get.bind fun s₂ h₂ => ?_
  have hdisk : s₁.disk = s.disk := State.disk_eq_of_unlogged h₁
  have hdisk' : s₂.disk = s.disk := State.disk_eq_of_unlogged (h₂.trans h₁)
  unfold settingsAt
  rw [hdisk]
  split
  · split
    · exact ends_fail host s₂ _
    · exact (gives_debug host s₂ _ _ _).bind fun _ _ => Ends.pure _
  · refine Ends.get.bind fun s₃ _ => ?_
    rw [hdisk']
    cases Settings.readFile s.disk path with
    | ok settings => exact (gives_debug host s₃ _ _ _).bind fun _ _ => Ends.pure _
    | error reason =>
      dsimp only
      split
      · exact ends_fail host s₃ _
      · exact (gives_log host s₃ _).bind fun _ _ => Ends.pure _

/-- How resolving the settings ends. -/
def settingsOf (host : Host) (d : Disk) (named : Option String) (overrides : Settings.Overrides) :
    Except Fault Settings := do
  let isRequired := named.any fun path => !path.isEmpty
  let settings ← settingsAt isRequired d (settingsPath host.place named)
  pure (settings.override overrides)

theorem ends_resolveSettings (host : Host) (s : State) (named : Option String)
    (overrides : Settings.Overrides) :
    Ends State.unlogged host s (resolveSettings named overrides)
      (settingsOf host s.disk named overrides) := by
  refine Ends.read.bind fun s₁ h₁ => ?_
  have hdisk : s₁.disk = s.disk := State.disk_eq_of_unlogged h₁
  exact hdisk ▸ (ends_loadSettings host s₁ _ _).andThen fun _ _ _ _ => Ends.pure _

/-- How a request for the library ends in a state: well if the library is ready, and else as a load
does. -/
def State.libraryResult (host : Host) (s : State) : Except Fault Unit :=
  if s.loader.isReady then .ok () else loadResult host s.disk

theorem State.libraryResult_of_not_isReady (host : Host) (h : s.loader.isReady = false) :
    s.libraryResult host = loadResult host s.disk := by
  simp [State.libraryResult, h]

theorem inProgress?_request (hs : s.loader.Sound) (hready : s.loader.isReady = false) :
    s.loader.request.2.inProgress? = some s.loader.request.1 := by
  by_cases h : ∃ t, s.loader.IsRunning t
  · obtain ⟨t, ht⟩ := h
    rw [Grammar.Loader.request_of_shared (hs.shared_of_isRunning ht)]
    exact hs.inProgress?_eq_some_iff.mpr ht
  · have hnone := hs.shared_eq_none hready (not_exists.mp h)
    rw [hs.request.inProgress?_eq_some_iff]
    rw [Grammar.Loader.request_of_none hnone]
    have hrunning := hs.isRunning_request hnone
    rwa [Grammar.Loader.request_of_none hnone] at hrunning

/-- What a request for the library leaves as it was, and when the library is ready afterwards. -/
structure AfterRequest (host : Host) (s s' : State) : Prop where
  sound : s'.loader.Sound
  isReady : s'.loader.isReady = true ↔ s.libraryResult host = .ok ()
  parses : s'.usage.parses = s.usage.parses
  released : s'.usage.released = s.usage.released
  lasting : s'.lasting = s.lasting

theorem runOn_ensureLibrary (host : Host) (hs : s.loader.Sound) :
    ∃ s', runOn host s ensureLibrary = (s.libraryResult host, s') ∧ AfterRequest host s s' := by
  cases hready : s.loader.isReady with
  | true =>
    obtain ⟨t, hshared, houtcome⟩ := Grammar.Loader.isReady_iff.mp hready
    have hwith : s.ReadyWith t s.usage.starts s.usage.loads := ⟨hshared, houtcome, rfl, rfl⟩
    have hresult : s.libraryResult host = .ok () := if_pos hready
    rw [hresult]
    exact ⟨s, hwith.runOn_ensureLibrary host, hs, by simp [hready, hresult], rfl, rfl, rfl⟩
  | false =>
    have hresult := State.libraryResult_of_not_isReady host hready
    let s₁ : State := { s with loader := s.loader.request.2 }
    have hprogress : s₁.loader.inProgress? = some s.loader.request.1 :=
      inProgress?_request hs hready
    obtain ⟨s₂, hawait, hloader, -, -, hparses, hreleased, hlasting⟩ :=
      runOn_awaitLibrary_of_inProgress host hprogress
    have hdisk : s₁.disk = s.disk := rfl
    rw [hdisk, ← hresult] at hawait hloader
    refine ⟨s₂, ?_, ?_, ?_, hparses, hreleased, hlasting⟩
    · rw [ensureLibrary, runOn_bind_ok (runOn_requestLibrary host s), hawait]
    · rw [hloader]
      exact hs.request.settle
    · rw [hloader, Grammar.Loader.isReady_settle hprogress]

def treeOf? (host : Host) (source : String) : Option Grammar.Node :=
  match host.library.parse source with
  | .ok root? => root?
  | .error _ => none

theorem endsLike_parse (host : Host) (hready : s.loader.isReady = true) {path : String}
    (hpath : Grammar.supports path = true) (source : String) :
    EndsLike (s.counting 1 0) host s (parse source path) (.ok (treeOf? host source)) := by
  obtain ⟨_, s₁, hlogger, hsame₁⟩ := gives_activeLogger host s
  refine .after hlogger (.after runOn_get ?_)
  rw [State.loader_eq_of_unlogged hsame₁, hready, hpath]
  obtain ⟨s₂, hcount, hsame₂⟩ : EndsLike (s.counting 1 0) host s₁
      (countUse fun u => { u with parses := u.parses + 1 }) (.ok ()) := .countUse _ hsame₁
  refine .after hcount (.after runOn_read (.of_ends ?_ hsame₂))
  unfold treeOf?
  rcases host.library.parse source with u | _ | root
  · exact (gives_log host s₂ _).bind fun _ _ => Ends.pure _
  · exact (gives_log host s₂ _).bind fun _ _ => Ends.pure _
  · exact Ends.pure _

def outlineOfTree (path source : String) (root : Grammar.Node) : Except Fault Outline :=
  match root.firstFault? with
  | some position => .error (.failure (.parseFailedAt path position))
  | none => .ok (Outline.build root source)

/-- How building the outline of a source ends, given how the request for the library ended. -/
def outlineWith (host : Host) (loaded : Except Fault Unit) (source path : String) :
    Except Fault Outline :=
  if !Grammar.supports path then .error (.failure (.unsupportedLanguage path))
  else
    match loaded with
    | .error e =>
      let message := e.message host.place
      .error (.failure (.parserUnavailable message (some (.ofMessage message))))
    | .ok _ =>
      match treeOf? host source with
      | none =>
        .error (.failure (.parserUnavailable ("no syntax tree produced for " ++ path) none))
      | some root => outlineOfTree path source root

def outlineFrom (host : Host) (d : Disk) (source path : String) : Except Fault Outline :=
  outlineWith host (loadResult host d) source path

theorem treeOf?_eq_some_iff {source : String} {root : Grammar.Node} :
    treeOf? host source = some root ↔ host.library.parse source = .ok (some root) := by
  unfold treeOf?
  cases host.library.parse source <;> simp

theorem outlineOfTree_eq_ok_iff (path : String) {source : String} {root : Grammar.Node}
    {f : Outline} :
    outlineOfTree path source root = .ok f ↔
      root.firstFault? = none ∧ Outline.build root source = f := by
  unfold outlineOfTree
  cases root.firstFault? <;> simp

theorem outlineWith_eq_ok_iff {loaded : Except Fault Unit} {source path : String} {f : Outline} :
    outlineWith host loaded source path = .ok f ↔
      Grammar.supports path = true ∧ loaded = .ok () ∧
        ∃ root, host.library.parse source = .ok (some root) ∧ root.firstFault? = none ∧
          Outline.build root source = f := by
  unfold outlineWith
  simp only [← treeOf?_eq_some_iff, ← outlineOfTree_eq_ok_iff path]
  cases Grammar.supports path with
  | false => simp
  | true =>
    cases loaded with
    | error e => simp
    | ok => cases treeOf? host source <;> simp

/-- For a source that the grammar does not read, nothing is asked for. -/
theorem ends_outlineOf_of_not_supports (host : Host) (s : State) (loaded : Except Fault Unit)
    {path : String} (hpath : Grammar.supports path = false) (source : String) :
    Ends State.unlogged host s (outlineOf source path) (outlineWith host loaded source path) := by
  unfold outlineOf outlineWith
  rw [hpath]
  exact (ends_fail host s _).bind_error _

/-- Where the library is asked for, one parse is counted if it is ready then, and one tree given
back if there was one. -/
theorem endsLike_outlineOf (host : Host) (hs : s.loader.Sound) {path : String}
    (hpath : Grammar.supports path = true) (source : String) :
    ∃ s₁, AfterRequest host s s₁ ∧
      EndsLike (s₁.counting (s.libraryResult host).isOk.toNat
          ((s.libraryResult host).isOk && (treeOf? host source).isSome).toNat)
        host s (outlineOf source path) (outlineWith host (s.libraryResult host) source path) := by
  obtain ⟨s₁, hensure, h₁⟩ := runOn_ensureLibrary host hs
  have hattempt : runOn host s (attempt ensureLibrary) = (.ok (s.libraryResult host), s₁) := by
    rw [runOn_attempt, hensure]
  have hready := h₁.isReady
  refine ⟨s₁, h₁, ?_⟩
  unfold outlineOf outlineWith
  rw [hpath]
  refine .after hattempt ?_
  cases hload : s.libraryResult host with
  | error e =>
    refine .of_ends ?_ rfl
    exact Ends.read.bind fun s₂ _ => (ends_fail host s₂ _).bind_error _
  | ok =>
    obtain ⟨s₂, hparse, hsame₂⟩ := endsLike_parse host (hready.2 hload) hpath source
    refine .after hparse ?_
    cases treeOf? host source with
    | none => exact .of_ends (ends_fail host s₂ _) hsame₂
    | some root =>
      have hbuild : Ends State.unlogged host s₂ (match root.firstFault? with
          | some position => fail (.parseFailedAt path position)
          | none => buildOutline root source) (outlineOfTree path source root) := by
        unfold outlineOfTree
        cases root.firstFault? with
        | some position => exact ends_fail host s₂ _
        | none => exact (gives_debug host s₂ _ _ _).bind fun _ _ => Ends.pure _
      obtain ⟨s₃, hbuilt, hsame₃⟩ := hbuild.attempt
      obtain ⟨s₄, hcount, hsame₄⟩ : EndsLike (s₁.counting 1 1) host s₃
          (countUse fun u => { u with released := u.released + 1 }) (.ok ()) :=
        .countUse _ (hsame₃.trans hsame₂)
      refine .after hbuilt (.after hcount (.of_ends ?_ hsame₄))
      change Ends _ _ _ _ (outlineOfTree path source root)
      cases outlineOfTree path source root with
      | ok f => exact Ends.pure f
      | error e => exact Ends.throw e

theorem ends_outlineOf (host : Host) (hidle : s.loader = .idle) (source path : String) :
    Ends State.lasting host s (outlineOf source path) (outlineFrom host s.disk source path) := by
  cases hpath : Grammar.supports path with
  | false => exact (ends_outlineOf_of_not_supports host s _ hpath source).lasting
  | true =>
    have hsound : s.loader.Sound := hidle ▸ Grammar.Loader.sound_idle
    have hready : s.loader.isReady = false := by
      rw [hidle]
      rfl
    obtain ⟨s₁, h₁, s', hrun, hsame⟩ := endsLike_outlineOf host hsound hpath source
    rw [State.libraryResult_of_not_isReady host hready] at hrun
    exact ⟨s', hrun, (State.lasting_eq_of_unlogged hsame).trans h₁.lasting⟩

theorem gives_annotate (host : Host) (s : State) (options : Annotation.Options) (f : Outline)
    (source : String) :
    Gives host s (annotate options f source) ( Annotation.annotate options f source) := by
  refine Ends.bind ((gives_debug host s _ _ _).bind fun _ _ => Ends.pure _) fun s₁ _ => ?_
  refine Ends.bind ((gives_debug host s₁ _ _ _).bind fun _ _ => Ends.pure _) fun s₂ _ => ?_
  refine (gives_debug host s₂ _ _ _).bind fun s₃ _ => ?_
  refine (gives_debug host s₃ _ _ _).bind fun s₄ _ => ?_
  exact (gives_debug host s₄ _ _ _).bind fun _ _ => Ends.pure _

end Session

namespace CommandLine

open Session

variable {host : Host} {s : State} {d : Disk} {globals locals : List Given} {input : String}

def sourceAt (host : Host) (d : Disk) (path : String) : Except Fault String :=
  if !d.hasPath (host.place.resolve path) then
    .error (.failure (.fileNotFound (host.place.resolve path)))
  else (d.read (host.place.resolve path)).mapError .disk

theorem ends_readSource (host : Host) (s : State) (path : String) :
    Ends State.unlogged host s (readSource path) (sourceAt host s.disk path) := by
  refine Ends.read.bind fun s₁ h₁ => Ends.get.bind fun s₂ _ => ?_
  have hdisk : s₁.disk = s.disk := State.disk_eq_of_unlogged h₁
  unfold sourceAt
  dsimp only
  rw [hdisk]
  split
  · exact (ends_fail host s₂ _).bind_error _
  · cases s.disk.read (host.place.resolve path) with
    | ok source => exact Ends.pure source
    | error e => exact Ends.throw _

/-- A source with its comments attached to its outline, and the settings that this was done by. -/
structure Annotated where
  settings : Settings
  outline : Outline
  stats : Annotation.Stats

namespace Annotated

def text (a : Annotated) : String := a.outline.toText a.settings.format

end Annotated

/-- The stages of a command that annotates a source. -/
def prepare (globals locals : List Given) (input : String) : Session Annotated := do
  let settings ← settingsFor globals locals
  let source ← readSource input
  let (outline, stats) ← annotateSource settings.annotation source input
  pure { settings, outline, stats }

/-- How the stages end, on a disk. -/
def prepared (host : Host) (globals locals : List Given) (input : String) (d : Disk) :
    Except Fault Annotated := do
  let settings ← settingsOf host d (valueOf? "config" globals) (overridesOf locals)
  let source ← sourceAt host d input
  let built ← outlineFrom host d source input
  let (outline, stats) := Annotation.annotate settings.annotation built source
  pure { settings, outline, stats }

theorem ends_prepare (host : Host) (hidle : s.loader = .idle) (globals locals : List Given)
    (input : String) :
    Ends State.lasting host s (prepare globals locals input)
      (prepared host globals locals input s.disk) := by
  refine (ends_resolveSettings host s _ _).andThen_lasting fun settings s₁ _ h₁ => ?_
  have hdisk₁ : s₁.disk = s.disk := State.disk_eq_of_unlogged h₁
  rw [← hdisk₁]
  refine (ends_readSource host s₁ input).andThen_lasting fun source s₂ _ h₂ => ?_
  have hdisk₂ : s₂.disk = s₁.disk := State.disk_eq_of_unlogged h₂
  have hidle₂ : s₂.loader = .idle := (State.loader_eq_of_unlogged (h₂.trans h₁)).trans hidle
  rw [← hdisk₂, annotateSource, bind_assoc]
  refine (ends_outlineOf host hidle₂ source input).andThen fun built s₃ _ _ => ?_
  exact (gives_annotate host s₃ _ _ _).lasting.bind fun _ _ => Ends.pure _

/-- Gives out what was prepared: on the output console, or in a file. -/
def deliver (a : Annotated) : Option String → Session Unit
  | none => print (a.text ++ "\n")
  | some path => do
    writeOutput ((← read).place.resolve path) a.text
    say fun isOn => successLine isOn ("Wrote " ++ path)
    say fun isOn => infoLine isOn "Policy" a.settings.policy.name
    say fun isOn => infoLine isOn "Comments" (toString a.stats.comments)
    say fun isOn => infoLine isOn "Attached" (toString a.stats.tally.attached)
    say fun isOn => infoLine isOn "Residual" (toString a.stats.tally.residual)

theorem runAnnotate_eq (globals locals : List Given) (input : String) (output : Option String) :
    runAnnotate globals locals input output =
      prepare globals locals input >>= fun a => deliver a output := by
  unfold runAnnotate prepare
  simp only [bind_assoc, pure_bind]
  cases output with
  | none => rfl
  | some path => rfl

end CommandLine
end Marginalia
