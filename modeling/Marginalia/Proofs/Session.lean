import Marginalia.Session.Source
import Mathlib.Tactic

/-!
# Steps of a session

How a step of a session ends and what it keeps of the state, for each way to
put steps together. Most steps only log: they leave everything as it was but the
logger and the error console. A few count a use of the library besides.
-/

namespace Marginalia

def Log.Logger.rotation? (l : Log.Logger) : Option Log.Rotation :=
  match l.sink with
  | .console => none
  | .files rotation _ => some rotation

theorem Log.Logger.rotation?_log (l : Log.Logger) (stamp : String) (e : Log.Event) :
    (l.log stamp e).1.rotation? = l.rotation? := by
  obtain ⟨threshold, sink⟩ := l
  unfold Log.Logger.log
  split
  · cases sink <;> rfl
  · rfl

namespace Session

variable {α β : Type} {host : Host} {s s' : State}

@[simp] theorem runOn_pure (a : α) : runOn host s (pure a) = (.ok a, s) := rfl

@[simp] theorem runOn_throw (e : Fault) : runOn host s (throw e : Session α) = (.error e, s) := rfl

@[simp] theorem runOn_get : runOn host s get = (.ok s, s) := rfl

@[simp] theorem runOn_read : runOn host s read = (.ok host, s) := rfl

@[simp] theorem runOn_modify (f : State → State) : runOn host s (modify f) = (.ok (), f s) := rfl

theorem runOn_bind (m : Session α) (f : α → Session β) :
    runOn host s (m >>= f) =
      match runOn host s m with
      | (.ok a, s') => runOn host s' (f a)
      | (.error e, s') => (.error e, s') := by
  simp only [runOn, bind, ReaderT.bind, ExceptT.bind, ExceptT.mk, ExceptT.bindCont, StateT.bind]
  rcases m host s with ⟨_ | _, s'⟩ <;> rfl

theorem runOn_map (m : Session α) (f : α → β) :
    runOn host s (f <$> m) =
      match runOn host s m with
      | (.ok a, s') => (.ok (f a), s')
      | (.error e, s') => (.error e, s') := by
  rw [← bind_pure_comp, runOn_bind]
  rfl

theorem runOn_tryCatch (m : Session α) (handle : Fault → Session α) :
    runOn host s (tryCatch m handle) =
      match runOn host s m with
      | (.ok a, s') => (.ok a, s')
      | (.error e, s') => runOn host s' (handle e) := by
  change (ExceptT.tryCatch (m host) (handle · host) : ExceptT Fault (StateM State) α) s = _
  simp only [runOn, ExceptT.tryCatch, ExceptT.mk, bind, StateT.bind]
  rcases m host s with ⟨_ | _, s'⟩ <;> rfl

theorem runOn_bind_ok {m : Session α} {a : α} (h : runOn host s m = (.ok a, s'))
    (f : α → Session β) : runOn host s (m >>= f) = runOn host s' (f a) := by
  rw [runOn_bind, h]

theorem runOn_bind_error {m : Session α} {e : Fault} (h : runOn host s m = (.error e, s'))
    (f : α → Session β) : runOn host s (m >>= f) = (.error e, s') := by
  rw [runOn_bind, h]

theorem runOn_attempt (m : Session α) :
    runOn host s (attempt m) = (.ok (runOn host s m).1, (runOn host s m).2) := by
  rw [attempt, runOn_tryCatch, runOn_map]
  rcases runOn host s m with ⟨_ | _, s'⟩ <;> rfl

/-- A step ends with a value or a fault, and keeps a view of the state. -/
def Ends {γ : Type} (view : State → γ) (host : Host) (s : State) (m : Session α)
    (r : Except Fault α) : Prop :=
  ∃ s', runOn host s m = (r, s') ∧ view s' = view s

namespace Ends

variable {γ : Type} {view : State → γ}

theorem pure (a : α) : Ends view host s (Pure.pure a) (.ok a) := ⟨s, rfl, rfl⟩

theorem throw (e : Fault) : Ends view host s (MonadExcept.throw e : Session α) (.error e) :=
  ⟨s, rfl, rfl⟩

theorem read : Ends view host s MonadReader.read (.ok host) := ⟨s, rfl, rfl⟩

theorem get : Ends view host s MonadState.get (.ok s) := ⟨s, rfl, rfl⟩

theorem modify {f : State → State} (h : view (f s) = view s) :
    Ends view host s (modify f) (.ok ()) := ⟨f s, rfl, h⟩

theorem after {m : Session α} {f : α → Session β} {a : α} {r : Except Fault β}
    (hrun : runOn host s m = (.ok a, s')) (hsame : view s' = view s)
    (hf : Ends view host s' (f a) r) : Ends view host s (m >>= f) r := by
  obtain ⟨s₂, hrun', hsame'⟩ := hf
  exact ⟨s₂, by rw [runOn_bind_ok hrun, hrun'], hsame'.trans hsame⟩

/-- A step that goes on from the value of another one, if there is one. -/
theorem andThen {m : Session α} {f : α → Session β} {r : Except Fault α} {g : α → Except Fault β}
    (hm : Ends view host s m r)
    (hf : ∀ a s', r = .ok a → view s' = view s → Ends view host s' (f a) (g a)) :
    Ends view host s (m >>= f) (r >>= g) := by
  obtain ⟨s₁, hrun, hsame⟩ := hm
  cases r with
  | error e => exact ⟨s₁, runOn_bind_error hrun f, hsame⟩
  | ok a => exact after hrun hsame (hf a s₁ rfl hsame)

theorem bind {m : Session α} {f : α → Session β} {a : α} {r : Except Fault β}
    (hm : Ends view host s m (.ok a))
    (hf : ∀ s', view s' = view s → Ends view host s' (f a) r) :
    Ends view host s (m >>= f) r :=
  hm.andThen (g := fun _ => r) fun _ s' ha hsame => Except.ok.inj ha ▸ hf s' hsame

theorem bind_error {m : Session α} {e : Fault} (hm : Ends view host s m (.error e))
    (f : α → Session β) : Ends view host s (m >>= f) (.error e) :=
  hm.andThen (g := fun _ => .error e) fun _ _ h => nomatch h

theorem attempt {m : Session α} {r : Except Fault α} (hm : Ends view host s m r) :
    Ends view host s (attempt m) (.ok r) := by
  obtain ⟨s', hrun, hsame⟩ := hm
  exact ⟨s', by rw [runOn_attempt, hrun], hsame⟩

end Ends

def State.rotation? (s : State) : Option Log.Rotation := s.logger.bind Log.Logger.rotation?

/-- All of a state but its logger, its error console and its counts of uses; which log files it
writes to is part of it. -/
def State.unused (s : State) : Disk × String × Grammar.Loader Fault × Option Log.Rotation :=
  (s.disk, s.output, s.loader, s.rotation?)

/-- All of a state but its logger and its error console. -/
def State.unlogged (s : State) :
    (Disk × String × Grammar.Loader Fault × Option Log.Rotation) × Usage :=
  (s.unused, s.usage)

/-- What of a state outlasts the session: the disk, the output console, and which log files there
are to write. -/
def State.lasting (s : State) : Disk × String × Option Log.Rotation :=
  (s.disk, s.output, s.rotation?)

theorem State.lasting_eq_of_unused (h : s'.unused = s.unused) : s'.lasting = s.lasting :=
  congrArg (fun v => (v.1, v.2.1, v.2.2.2)) h

theorem State.unused_eq_of_unlogged (h : s'.unlogged = s.unlogged) : s'.unused = s.unused :=
  congrArg Prod.fst h

theorem State.lasting_eq_of_unlogged (h : s'.unlogged = s.unlogged) : s'.lasting = s.lasting :=
  State.lasting_eq_of_unused (congrArg Prod.fst h)

theorem State.usage_eq_of_unlogged (h : s'.unlogged = s.unlogged) : s'.usage = s.usage :=
  congrArg Prod.snd h

theorem State.disk_eq_of_unlogged (h : s'.unlogged = s.unlogged) : s'.disk = s.disk :=
  congrArg (fun v => v.1.1) h

theorem State.loader_eq_of_unlogged (h : s'.unlogged = s.unlogged) : s'.loader = s.loader :=
  congrArg (fun v => v.1.2.2.1) h

theorem Ends.lasting {m : Session α} {r : Except Fault α} (hm : Ends State.unlogged host s m r) :
    Ends State.lasting host s m r := by
  obtain ⟨s', hrun, hsame⟩ := hm
  exact ⟨s', hrun, State.lasting_eq_of_unlogged hsame⟩

theorem Ends.andThen_lasting {m : Session α} {f : α → Session β} {r : Except Fault α}
    {g : α → Except Fault β} (hm : Ends State.unlogged host s m r)
    (hf : ∀ a s', r = .ok a → s'.unlogged = s.unlogged → Ends State.lasting host s' (f a) (g a)) :
    Ends State.lasting host s (m >>= f) (r >>= g) := by
  cases r with
  | error e => exact hm.lasting.bind_error f
  | ok a =>
    obtain ⟨s₁, hrun, hsame⟩ := hm
    exact Ends.after hrun (State.lasting_eq_of_unlogged hsame) (hf a s₁ rfl hsame)

/-- A step gives a value and only logs on the way: it keeps all but the logger and the error
console. -/
abbrev Gives (host : Host) (s : State) (m : Session α) (a : α) : Prop :=
  Ends State.unlogged host s m (.ok a)

theorem runOn_give (host : Host) {l : Log.Logger} (hl : s.logger = some l) (e : Log.Event) :
    ∃ s', runOn host s (give l e) = (.ok (), s') ∧ s'.unlogged = s.unlogged ∧
      s'.logger = some (l.log host.stamp e).1 := by
  refine ⟨_, rfl, ?_, rfl⟩
  change ((_, _, _, (l.log host.stamp e).1.rotation?), _) = ((_, _, _, s.logger.bind _), _)
  rw [hl, l.rotation?_log]
  rfl

theorem runOn_activeLogger_none (host : Host) (hl : s.logger = none) :
    ∃ l s', runOn host s activeLogger = (.ok l, s') ∧ s'.unlogged = s.unlogged ∧
      s'.logger = some l := by
  let level := Log.Level.ofEnvironment host.environment
  let l : Log.Logger := { threshold := level.threshold, sink := .console }
  let s₁ : State := { s with logger := some l }
  have hsame : s₁.unlogged = s.unlogged := by
    simp [State.unlogged, State.unused, State.rotation?, Log.Logger.rotation?, s₁, l, hl]
  have hrun : runOn host s activeLogger = runOn host s₁ (do
      if level = .debug then
        give l (.of .debug "logger" "Debug logging enabled via environment variable" [])
      pure l) := by
    rw [activeLogger, runOn_bind_ok runOn_get, hl]
    rfl
  rw [hrun]
  by_cases hdebug : level = .debug
  · obtain ⟨s₂, hgive, hsame', hl₂⟩ := runOn_give host (s := s₁) rfl
      (.of .debug "logger" "Debug logging enabled via environment variable" [])
    refine ⟨l, s₂, ?_, hsame'.trans hsame, hl₂.trans (congrArg some ?_)⟩
    · rw [if_pos hdebug, runOn_bind_ok hgive, runOn_pure]
    · unfold Log.Logger.log
      split <;> rfl
  · refine ⟨l, s₁, ?_, hsame, rfl⟩
    rw [if_neg hdebug]
    rfl

theorem runOn_activeLogger (host : Host) (s : State) :
    ∃ l s', runOn host s activeLogger = (.ok l, s') ∧ s'.unlogged = s.unlogged ∧
      s'.logger = some l := by
  rcases hl : s.logger with _ | l
  · exact runOn_activeLogger_none host hl
  · refine ⟨l, s, ?_, rfl, hl⟩
    rw [activeLogger, runOn_bind_ok runOn_get, hl, runOn_pure]

theorem gives_activeLogger (host : Host) (s : State) : ∃ l, Gives host s activeLogger l := by
  obtain ⟨l, s', hrun, hsame, -⟩ := runOn_activeLogger host s
  exact ⟨l, s', hrun, hsame⟩

theorem gives_log (host : Host) (s : State) (e : Log.Event) : Gives host s (log e) () := by
  obtain ⟨l, s₁, hrun, hsame, hl⟩ := runOn_activeLogger host s
  obtain ⟨s₂, hgive, hsame', -⟩ := runOn_give host hl e
  exact ⟨s₂, by rw [log, runOn_bind_ok hrun, hgive], hsame'.trans hsame⟩

theorem gives_debug (host : Host) (s : State) (component message : String)
    (details : Json.Members) : Gives host s (debug component message details) () :=
  gives_log host s _

theorem ends_fail (host : Host) (s : State) (f : Failure) :
    Ends State.unlogged host s (fail f : Session α) (.error (.failure f)) :=
  Ends.read.bind fun s₁ _ => (gives_log host s₁ _).bind fun _ _ => Ends.throw _

/-- A state in which further parses and further trees given back are counted. -/
def State.counting (s : State) (parses released : Nat) : State :=
  { s with
    usage := { s.usage with
      parses := s.usage.parses + parses
      released := s.usage.released + released } }

@[simp] theorem State.loader_counting (s : State) (parses released : Nat) :
    (s.counting parses released).loader = s.loader := rfl

@[simp] theorem State.parses_counting (s : State) (parses released : Nat) :
    (s.counting parses released).usage.parses = s.usage.parses + parses := rfl

@[simp] theorem State.released_counting (s : State) (parses released : Nat) :
    (s.counting parses released).usage.released = s.usage.released + released := rfl

/-- A step ends with a value or a fault, in a state that is like another one apart from the log. -/
def EndsLike (t : State) (host : Host) (s : State) (m : Session α)
    (r : Except Fault α) : Prop :=
  ∃ s', runOn host s m = (r, s') ∧ s'.unlogged = t.unlogged

namespace EndsLike

variable {t : State}

theorem of_ends {m : Session α} {r : Except Fault α} (hm : Ends State.unlogged host s m r)
    (hs : s.unlogged = t.unlogged) : EndsLike t host s m r := by
  obtain ⟨s', hrun, hsame⟩ := hm
  exact ⟨s', hrun, hsame.trans hs⟩

theorem after {m : Session α} {f : α → Session β} {a : α} {r : Except Fault β}
    (hrun : runOn host s m = (.ok a, s')) (hf : EndsLike t host s' (f a) r) :
    EndsLike t host s (m >>= f) r := by
  obtain ⟨s₂, hrun', hsame⟩ := hf
  exact ⟨s₂, by rw [runOn_bind_ok hrun, hrun'], hsame⟩

theorem countUse {t₀ : State} (change : Usage → Usage) (hs : s.unlogged = t₀.unlogged) :
    EndsLike { t₀ with usage := change t₀.usage } host s (countUse change) (.ok ()) :=
  ⟨_, rfl, congrArg (fun v => (v.1, change v.2)) hs⟩

end EndsLike

def foundPath? (host : Host) (d : Disk) (file : String) : Option String :=
  (candidatePaths host file).find? d.hasPath

theorem gives_locate (host : Host) (s : State) (file : String) :
    Gives host s (locate file) (foundPath? host s.disk file) := by
  obtain ⟨_, hlogger⟩ := gives_activeLogger host s
  refine hlogger.bind fun s₁ h₁ => Ends.read.bind fun s₂ h₂ => ?_
  have hdisk : s₂.disk = s.disk := State.disk_eq_of_unlogged (h₂.trans h₁)
  have hfirst : Gives host s₂ (firstExisting (candidatePaths host file))
      (foundPath? host s.disk file) := ⟨s₂, by rw [← hdisk]; rfl, rfl⟩
  refine hfirst.bind fun s₃ _ => ?_
  cases foundPath? host s.disk file with
  | none => exact (gives_debug host s₃ _ _ _).bind fun _ _ => Ends.pure _
  | some path => exact (gives_debug host s₃ _ _ _).bind fun _ _ => Ends.pure _

end Session
end Marginalia
