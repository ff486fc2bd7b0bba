import Marginalia.Proofs.Session
import Mathlib.Logic.Relation

/-!
# Loading at most once

The grammar library is shared by everybody who asks for it. Whatever the order
of requests and of the ends of loads, one load at most is in progress, those
who ask meanwhile share it and its outcome, the first success is the last load,
and a failed load makes room for exactly one new load.
-/

namespace Marginalia

namespace Grammar.Loader

variable {ε : Type} {l : Loader ε} {t u : Ticket} {r : Except ε Unit}

/-- A load was started and has not ended. -/
def IsRunning (l : Loader ε) (t : Ticket) : Prop := t < l.started ∧ l.outcome? t = none

/-- The loads that were started have failed, except for the one that is shared. -/
structure Sound (l : Loader ε) : Prop where
  lt_of_outcome : ∀ t r, l.outcome? t = some r → t < l.started
  lt_of_shared : ∀ t, l.shared = some t → t < l.started
  failed : ∀ t < l.started, l.shared ≠ some t → ∃ e, l.outcome? t = some (.error e)
  not_failed : ∀ t e, l.shared = some t → l.outcome? t ≠ some (.error e)

theorem sound_idle : Sound (idle : Loader ε) where
  lt_of_outcome _ _ h := by simp [idle, outcome?] at h
  lt_of_shared _ h := by simp [idle] at h
  failed _ h := by simp [idle] at h
  not_failed _ _ h := by simp [idle] at h

theorem isReady_iff :
    l.isReady = true ↔ ∃ t, l.shared = some t ∧ l.outcome? t = some (.ok ()) := by
  rw [isReady, Option.any_eq_true]
  refine exists_congr fun t => and_congr_right fun _ => ?_
  cases h : l.outcome? t with
  | none => simp
  | some r => cases r <;> simp

theorem request_of_shared (h : l.shared = some t) : l.request = (t, l) := by
  rw [request, h]

theorem request_of_none (h : l.shared = none) :
    l.request = (l.started, { l with started := l.started + 1, shared := some l.started }) := by
  rw [request, h]

theorem inProgress?_eq_some_iff :
    l.inProgress? = some t ↔ l.shared = some t ∧ l.outcome? t = none := by
  rw [inProgress?, Option.filter_eq_some_iff]
  simp

@[simp] theorem started_settle : (l.settle r).started = l.started := by
  unfold settle
  split <;> rfl

theorem shared_settle_ok (h : l.inProgress? = some t) :
    (l.settle (.ok ())).shared = some t := by
  unfold settle
  rw [h]

theorem shared_settle_error (h : l.inProgress? = some t) (e : ε) :
    (l.settle (.error e)).shared = none := by
  unfold settle
  rw [h]

theorem outcome?_settle (h : l.inProgress? = some t) :
    (l.settle r).outcome? u = if u = t then some r else l.outcome? u := by
  unfold settle outcome?
  rw [h, List.lookup_cons]
  by_cases hu : u = t
  · simp [hu]
  · simp [hu, beq_eq_false_iff_ne.mpr hu]

theorem isReady_settle (h : l.inProgress? = some t) :
    (l.settle r).isReady = true ↔ r = .ok () := by
  rw [isReady_iff]
  cases r with
  | ok => simp [shared_settle_ok h, outcome?_settle h]
  | error e => simp [shared_settle_error h]

theorem outcome?_request : l.request.2.outcome? u = l.outcome? u := by
  unfold request
  split <;> rfl

namespace Sound

theorem shared_of_isRunning (hl : l.Sound) (h : l.IsRunning t) : l.shared = some t := by
  by_contra hne
  obtain ⟨e, he⟩ := hl.failed t h.1 hne
  simp [h.2] at he

/-- The load in progress is the only one that runs. -/
theorem inProgress?_eq_some_iff (hl : l.Sound) : l.inProgress? = some t ↔ l.IsRunning t := by
  rw [Loader.inProgress?_eq_some_iff]
  exact ⟨fun h => ⟨hl.lt_of_shared t h.1, h.2⟩, fun h => ⟨hl.shared_of_isRunning h, h.2⟩⟩

theorem shared_eq_none (hl : l.Sound) (hready : l.isReady = false)
    (hrunning : ∀ t, ¬ l.IsRunning t) : l.shared = none := by
  rcases h : l.shared with _ | t
  · rfl
  · rcases ho : l.outcome? t with _ | e | _
    · exact (hrunning t ⟨hl.lt_of_shared t h, ho⟩).elim
    · exact (hl.not_failed t e h ho).elim
    · have := isReady_iff.mpr ⟨t, h, ho⟩
      simp [hready] at this

theorem request (hl : l.Sound) : l.request.2.Sound := by
  rcases h : l.shared with _ | t
  · rw [request_of_none h]
    constructor
    · intro u r hu
      exact Nat.lt_succ_of_lt (hl.lt_of_outcome u r hu)
    · intro u hu
      exact Option.some.inj hu ▸ Nat.lt_succ_self _
    · intro u hu hne
      have hlt : u < l.started :=
        Nat.lt_of_le_of_ne (Nat.le_of_lt_succ hu) fun heq => hne (heq ▸ rfl)
      exact hl.failed u hlt (by simp [h])
    · -- The new load has no outcome, since only loads that were started have one.
      intro u e hu he
      obtain rfl := Option.some.inj hu
      exact Nat.lt_irrefl _ (hl.lt_of_outcome _ _ he)
  · rw [request_of_shared h]
    exact hl

/-- The end of the load in progress: the others have failed before, and it is shared only if it
has not failed. -/
theorem settle_of_inProgress (hl : l.Sound) (h : l.inProgress? = some t) : (l.settle r).Sound := by
  obtain ⟨hshared, -⟩ := Loader.inProgress?_eq_some_iff.mp h
  have hlt := hl.lt_of_shared t hshared
  have hothers : ∀ u < l.started, u ≠ t → ∃ e, (l.settle r).outcome? u = some (.error e) := by
    intro u hu hne
    rw [outcome?_settle h, if_neg hne]
    exact hl.failed u hu (by simp [hshared, Ne.symm hne])
  have hself : (l.settle r).outcome? t = some r := by rw [outcome?_settle h, if_pos rfl]
  refine ⟨fun u r' hu => ?_, fun u hu => ?_, fun u hu hne => ?_, fun u e hu => ?_⟩
  · rw [started_settle]
    by_cases hut : u = t
    · exact hut ▸ hlt
    · rw [outcome?_settle h, if_neg hut] at hu
      exact hl.lt_of_outcome u r' hu
  · rw [started_settle]
    cases r with
    | ok =>
      rw [shared_settle_ok h] at hu
      exact Option.some.inj hu ▸ hlt
    | error e => simp [shared_settle_error h] at hu
  · rw [started_settle] at hu
    by_cases hut : u = t
    · subst hut
      cases r with
      | ok => exact (hne (shared_settle_ok h)).elim
      | error e => exact ⟨e, hself⟩
    · exact hothers u hu hut
  · cases r with
    | ok =>
      rw [shared_settle_ok h] at hu
      rw [← Option.some.inj hu, hself]
      simp
    | error e => simp [shared_settle_error h] at hu

theorem settle (hl : l.Sound) : (l.settle r).Sound := by
  rcases h : l.inProgress? with _ | t
  · have heq : l.settle r = l := by rw [Loader.settle, h]
    rw [heq]
    exact hl
  · exact hl.settle_of_inProgress h

theorem not_isRunning_settle (hl : l.Sound) (h : l.inProgress? = some t) :
    ¬ (l.settle r).IsRunning u := by
  rintro ⟨hlt, hnone⟩
  rw [started_settle] at hlt
  rw [outcome?_settle h] at hnone
  split_ifs at hnone with hut
  have hrunning := hl.inProgress?_eq_some_iff.mpr ⟨hlt, hnone⟩
  exact hut (Option.some.inj (hrunning.symm.trans h))

theorem isRunning_request (hl : l.Sound) (h : l.shared = none) :
    l.request.2.IsRunning l.started := by
  refine ⟨?_, ?_⟩
  · rw [request_of_none h]
    exact Nat.lt_succ_self _
  · rw [outcome?_request]
    rcases ho : l.outcome? l.started with _ | r
    · rfl
    · exact (Nat.lt_irrefl _ (hl.lt_of_outcome _ _ ho)).elim

end Sound

theorem outcome?_settle_of_some (h : l.outcome? u = some r) (r' : Except ε Unit) :
    (l.settle r').outcome? u = some r := by
  rcases hp : l.inProgress? with _ | t
  · rw [Loader.settle, hp]
    exact h
  · have hne : u ≠ t := by
      rintro rfl
      simp [(inProgress?_eq_some_iff.mp hp).2] at h
    rw [outcome?_settle hp, if_neg hne, h]

end Grammar.Loader

namespace Session

open Grammar (Ticket)

variable {host : Host} {s s' : State} {t : Ticket}

/-- The path at which the runtime is found. -/
def runtimePath? (host : Host) (d : Disk) : Option String :=
  Grammar.runtimeFiles.findSome? (foundPath? host d)

/-- How a load ends: with the first of its stages that fails, if any. -/
def loadResult (host : Host) (d : Disk) : Except Fault Unit :=
  match runtimePath? host d with
  | none => .error (.upset (.error "Could not find web-tree-sitter WASM file"))
  | some _ =>
    match host.library.start with
    | .error u => .error (.upset u)
    | .ok _ =>
      match foundPath? host d Grammar.grammarFile with
      | none => .error (.upset (.error "Could not find the tree-sitter-rust grammar"))
      | some grammar =>
        match host.library.load grammar with
        | .error u => .error (.upset u)
        | .ok _ => .ok ()

/-- A load succeeds if the runtime is found and starts, and the grammar is found and loaded. -/
theorem loadResult_eq_ok_iff {d : Disk} :
    loadResult host d = .ok () ↔
      (runtimePath? host d).isSome ∧ host.library.start = .ok () ∧
        ∃ grammar, foundPath? host d Grammar.grammarFile = some grammar ∧
          host.library.load grammar = .ok () := by
  unfold loadResult
  rcases runtimePath? host d with _ | runtime
  · simp
  · rcases host.library.start with u | _
    · simp
    · rcases foundPath? host d Grammar.grammarFile with _ | grammar
      · simp
      · rcases hload : host.library.load grammar with u | _ <;> simp [hload]

theorem gives_locateFirst (host : Host) (s : State) (files : List String) :
    Gives host s (locateFirst files) (files.findSome? (foundPath? host s.disk)) := by
  induction files generalizing s with
  | nil => exact Ends.pure _
  | cons file rest ih =>
    refine (gives_locate host s file).bind fun s₁ h₁ => ?_
    rw [List.findSome?_cons]
    cases foundPath? host s.disk file with
    | none =>
      have hdisk : s₁.disk = s.disk := State.disk_eq_of_unlogged h₁
      exact hdisk ▸ ih s₁
    | some path => exact Ends.pure _

/-- A state in which a load may have come some way: the runtime was started and the grammar was
loaded once more at most, and nothing else but the log has changed. -/
structure Loading (s s' : State) : Prop where
  unused : s'.unused = s.unused
  starts : s'.usage.starts ≤ s.usage.starts + 1
  loads : s'.usage.loads ≤ s.usage.loads + 1
  parses : s'.usage.parses = s.usage.parses
  released : s'.usage.released = s.usage.released

theorem Loading.of_unlogged {s₁ s₂ : State} (h : Loading s s₁) (hsame : s₂.unlogged = s₁.unlogged) :
    Loading s s₂ := by
  have husage := State.usage_eq_of_unlogged hsame
  exact ⟨(State.unused_eq_of_unlogged hsame).trans h.unused, husage ▸ h.starts, husage ▸ h.loads,
    husage ▸ h.parses, husage ▸ h.released⟩

theorem Loading.after_unlogged {s₁ s₂ : State} (h : Loading s₁ s₂)
    (hsame : s₁.unlogged = s.unlogged) : Loading s s₂ := by
  have husage := State.usage_eq_of_unlogged hsame
  exact ⟨h.unused.trans (State.unused_eq_of_unlogged hsame), husage ▸ h.starts, husage ▸ h.loads,
    husage ▸ h.parses, husage ▸ h.released⟩

theorem runOn_countUse (host : Host) (s : State) (change : Usage → Usage) :
    runOn host s (countUse change) = (.ok (), { s with usage := change s.usage }) := rfl

theorem runOn_ofCall_ok {α : Type} (host : Host) (s : State) (a : α) :
    runOn host s (ofCall (.ok a)) = (.ok a, s) := rfl

/-- A load ends as its surroundings let it. -/
theorem runOn_loadSteps (host : Host) (s : State) :
    ∃ s', runOn host s loadSteps = (loadResult host s.disk, s') ∧ Loading s s' := by
  have hstart : Loading s s := ⟨rfl, Nat.le_succ _, Nat.le_succ _, rfl, rfl⟩
  obtain ⟨s₁, hruntime, hsame₁⟩ := gives_locateFirst host s Grammar.runtimeFiles
  have h₁ := hstart.of_unlogged hsame₁
  have husage₁ : s₁.usage = s.usage := State.usage_eq_of_unlogged hsame₁
  rw [loadSteps, runOn_bind_ok runOn_read, locateRuntime]
  unfold loadResult runtimePath?
  dsimp only
  rw [runOn_bind_ok hruntime]
  cases Grammar.runtimeFiles.findSome? (foundPath? host s.disk) with
  | none => exact ⟨s₁, rfl, h₁⟩
  | some runtime =>
    let s₂ : State :=
      { s₁ with usage := { s₁.usage with starts := s₁.usage.starts + 1, runtime := some runtime } }
    have h₂ : Loading s s₂ :=
      ⟨h₁.unused, by simp [s₂, husage₁], by simp [s₂, husage₁], h₁.parses, h₁.released⟩
    dsimp only
    rw [runOn_bind_ok (runOn_countUse host s₁ _)]
    cases host.library.start with
    | error u => exact ⟨s₂, rfl, h₂⟩
    | ok =>
      rw [runOn_bind_ok (runOn_ofCall_ok host _ ())]
      obtain ⟨s₃, hgrammar, hsame₃⟩ := gives_locate host s₂ Grammar.grammarFile
      have hdisk : s₂.disk = s.disk := congrArg Prod.fst h₂.unused
      have h₃ := h₂.of_unlogged hsame₃
      rw [runOn_bind_ok hgrammar, hdisk]
      cases foundPath? host s.disk Grammar.grammarFile with
      | none => exact ⟨s₃, rfl, h₃⟩
      | some grammar =>
        let s₄ : State := { s₃ with usage := { s₃.usage with loads := s₃.usage.loads + 1 } }
        have husage₃ : s₃.usage = s₂.usage := State.usage_eq_of_unlogged hsame₃
        have h₄ : Loading s s₄ :=
          ⟨h₃.unused, h₃.starts, by simp [s₄, husage₃, s₂, husage₁], h₃.parses, h₃.released⟩
        dsimp only
        rw [runOn_bind_ok (runOn_countUse host s₃ _)]
        cases host.library.load grammar with
        | error u => exact ⟨s₄, rfl, h₄⟩
        | ok =>
          rw [runOn_bind_ok (runOn_ofCall_ok host _ ())]
          obtain ⟨s₅, hdebug, hsame₅⟩ := gives_debug host s₄ parserComponent "Rust grammar loaded"
            [("runtimePath", .str runtime), ("grammarPath", .str grammar)]
          exact ⟨s₅, hdebug, h₄.of_unlogged hsame₅⟩

theorem runOn_load (host : Host) (s : State) :
    ∃ s', runOn host s load = (loadResult host s.disk, s') ∧ Loading s s' := by
  obtain ⟨_, s₁, hlogger, hsame₁⟩ := gives_activeLogger host s
  obtain ⟨s₂, hsteps, h₂⟩ := runOn_loadSteps host s₁
  have hdisk : s₁.disk = s.disk := State.disk_eq_of_unlogged hsame₁
  have h : Loading s s₂ := h₂.after_unlogged hsame₁
  rw [load, runOn_bind_ok hlogger, runOn_tryCatch, hsteps, hdisk]
  cases loadResult host s.disk with
  | ok => exact ⟨s₂, rfl, h⟩
  | error e =>
    obtain ⟨s₃, hlog, hsame₃⟩ := gives_log host s₂ (.of .error parserComponent
      "Failed to initialize Tree-sitter" [("error", .str (e.message host.place))])
    refine ⟨s₃, ?_, h.of_unlogged hsame₃⟩
    dsimp only
    rw [runOn_bind_ok runOn_read, runOn_bind_ok hlog, runOn_throw]

theorem runOn_requestLibrary (host : Host) (s : State) :
    runOn host s requestLibrary =
      (.ok s.loader.request.1, { s with loader := s.loader.request.2 }) := rfl

theorem runOn_awaitLibrary_of_outcome (host : Host) {r : Except Fault Unit}
    (h : s.loader.outcome? t = some r) : runOn host s (awaitLibrary t) = (r, s) := by
  have hnot : s.loader.inProgress? ≠ some t := fun hp => by
    simp [(Grammar.Loader.inProgress?_eq_some_iff.mp hp).2] at h
  rw [awaitLibrary, runOn_bind_ok runOn_get]
  dsimp only
  rw [if_neg hnot, runOn_bind_ok runOn_get, h]
  cases r <;> rfl

/-- The load in progress ends for whoever waits for it first. -/
theorem runOn_awaitLibrary_of_inProgress (host : Host) (h : s.loader.inProgress? = some t) :
    ∃ s', runOn host s (awaitLibrary t) = (loadResult host s.disk, s') ∧
      s'.loader = s.loader.settle (loadResult host s.disk) ∧
      s'.usage.starts ≤ s.usage.starts + 1 ∧ s'.usage.loads ≤ s.usage.loads + 1 ∧
      s'.usage.parses = s.usage.parses ∧ s'.usage.released = s.usage.released ∧
      s'.lasting = s.lasting := by
  obtain ⟨s₁, hload, h₁⟩ := runOn_load host s
  generalize loadResult host s.disk = r at hload ⊢
  have hloader : s₁.loader = s.loader := congrArg (fun v => v.2.2.1) h₁.unused
  have hattempt : runOn host s (attempt load) = (.ok r, s₁) := by rw [runOn_attempt, hload]
  let s₂ : State := { s₁ with loader := s₁.loader.settle r }
  have hsettle : s₂.loader = s.loader.settle r := by rw [← hloader]
  have houtcome : s₂.loader.outcome? t = some r := by
    rw [hsettle, Grammar.Loader.outcome?_settle h, if_pos rfl]
  have hlasting : s₁.lasting = s.lasting := State.lasting_eq_of_unused h₁.unused
  refine ⟨s₂, ?_, hsettle, h₁.starts, h₁.loads, h₁.parses, h₁.released, hlasting⟩
  rw [awaitLibrary, runOn_bind_ok runOn_get]
  dsimp only
  rw [if_pos h, runOn_bind_ok hattempt,
    runOn_bind_ok (runOn_modify fun s => { s with loader := s.loader.settle r }),
    runOn_bind_ok runOn_get, houtcome]
  cases r <;> rfl

/-- One thing that happens in a session: somebody asks for the library, somebody waits for a load
in surroundings of any kind, or something goes on that neither loads nor asks. -/
inductive Step (s : State) : State → Prop
  | request (host : Host) : Step s (runOn host s requestLibrary).2
  | await (host : Host) (t : Ticket) : Step s (runOn host s (awaitLibrary t)).2
  | other {s' : State} (hloader : s'.loader = s.loader)
      (hstarts : s'.usage.starts = s.usage.starts) (hloads : s'.usage.loads = s.usage.loads) :
      Step s s'

/-- What a session comes to from a state, after any number of steps in any order. -/
abbrev Later : State → State → Prop := Relation.ReflTransGen Step

theorem await_cases (host : Host) (s : State) (t : Ticket) :
    s.loader.inProgress? = some t ∨ (runOn host s (awaitLibrary t)).2 = s := by
  by_cases h : s.loader.inProgress? = some t
  · exact .inl h
  · right
    rw [awaitLibrary, runOn_bind_ok runOn_get]
    dsimp only
    rw [if_neg h, runOn_bind_ok runOn_get]
    rcases s.loader.outcome? t with _ | _ | _ <;> rfl

theorem Step.sound (h : Step s s') (hs : s.loader.Sound) : s'.loader.Sound := by
  cases h with
  | request host => exact hs.request
  | await host t =>
    rcases await_cases host s t with hp | heq
    · obtain ⟨s₁, hrun, hloader, -⟩ := runOn_awaitLibrary_of_inProgress host hp
      rw [hrun]
      exact hloader ▸ hs.settle
    · rwa [heq]
  | other hloader => rwa [hloader]

theorem Later.sound (h : Later s s') (hs : s.loader.Sound) : s'.loader.Sound := by
  induction h with
  | refl => exact hs
  | tail _ hstep ih => exact hstep.sound ih

/-- The outcome of a load never changes. -/
theorem Step.outcome? (h : Step s s') {r : Except Fault Unit}
    (hr : s.loader.outcome? t = some r) : s'.loader.outcome? t = some r := by
  cases h with
  | request host => exact Grammar.Loader.outcome?_request.trans hr
  | await host u =>
    rcases await_cases host s u with hp | heq
    · obtain ⟨s₁, hrun, hloader, -⟩ := runOn_awaitLibrary_of_inProgress host hp
      rw [hrun]
      exact hloader ▸ Grammar.Loader.outcome?_settle_of_some hr _
    · rwa [heq]
  | other hloader => rwa [hloader]

theorem Later.outcome? (h : Later s s') {r : Except Fault Unit}
    (hr : s.loader.outcome? t = some r) : s'.loader.outcome? t = some r := by
  induction h with
  | refl => exact hr
  | tail _ hstep ih => exact hstep.outcome? ih

/-- A load that has succeeded, and the counts of uses of the library. -/
structure State.ReadyWith (s : State) (t : Ticket) (starts loads : Nat) : Prop where
  shared : s.loader.shared = some t
  outcome : s.loader.outcome? t = some (.ok ())
  starts : s.usage.starts = starts
  loads : s.usage.loads = loads

theorem Step.readyWith (h : Step s s') {starts loads : Nat} (hs : s.ReadyWith t starts loads) :
    s'.ReadyWith t starts loads := by
  cases h with
  | request host =>
    rw [runOn_requestLibrary, Grammar.Loader.request_of_shared hs.shared]
    exact hs
  | await host u =>
    rcases await_cases host s u with hp | heq
    · -- No load is in progress, for the shared one has ended.
      obtain ⟨hshared, hnone⟩ := Grammar.Loader.inProgress?_eq_some_iff.mp hp
      obtain rfl := Option.some.inj (hshared.symm.trans hs.shared)
      simp [hs.outcome] at hnone
    · rwa [heq]
  | other hloader hstarts hloads =>
    exact ⟨hloader ▸ hs.shared, hloader ▸ hs.outcome, hstarts ▸ hs.starts, hloads ▸ hs.loads⟩

theorem Later.readyWith (h : Later s s') {starts loads : Nat} (hs : s.ReadyWith t starts loads) :
    s'.ReadyWith t starts loads := by
  induction h with
  | refl => exact hs
  | tail _ hstep ih => exact hstep.readyWith ih

theorem State.ReadyWith.isReady {starts loads : Nat} (h : s.ReadyWith t starts loads) :
    s.loader.isReady = true :=
  Grammar.Loader.isReady_iff.mpr ⟨t, h.shared, h.outcome⟩

theorem State.ReadyWith.runOn_ensureLibrary {starts loads : Nat} (h : s.ReadyWith t starts loads)
    (host : Host) : runOn host s ensureLibrary = (.ok (), s) := by
  rw [ensureLibrary, runOn_bind_ok (runOn_requestLibrary host s),
    Grammar.Loader.request_of_shared h.shared]
  exact runOn_awaitLibrary_of_outcome host h.outcome

structure State.SharesLibrary (s : State) : Prop where
  /-- At most one load is in progress. -/
  one_running : ∀ t u, s.loader.IsRunning t → s.loader.IsRunning u → t = u
  /-- Who asks while a load is in progress gets that load, and nothing is started. -/
  request_running : ∀ t host, s.loader.IsRunning t → runOn host s requestLibrary = (.ok t, s)
  /-- The load in progress ends with the first of its stages that fails, and uses each part of the
  library once at most. The library is ready then exactly if the load succeeded. No load runs any
  more, and everybody who waits for this one gets its outcome, at any time. -/
  settles : ∀ t host, s.loader.IsRunning t →
    ∃ s₁, runOn host s (awaitLibrary t) = (loadResult host s.disk, s₁) ∧
      (s₁.loader.isReady = true ↔ loadResult host s.disk = .ok ()) ∧
      (∀ u, ¬ s₁.loader.IsRunning u) ∧
      s₁.usage.starts ≤ s.usage.starts + 1 ∧ s₁.usage.loads ≤ s.usage.loads + 1 ∧
      ∀ s₂ host', Later s₁ s₂ →
        runOn host' s₂ (awaitLibrary t) = (loadResult host s.disk, s₂)
  /-- Once the library is ready it stays so: nobody who asks has to wait or fails, and neither the
  runtime nor the grammar is loaded again. -/
  stays_ready : s.loader.isReady = true → ∀ s₁, Later s s₁ →
    s₁.loader.isReady = true ∧ (∀ host, runOn host s₁ ensureLibrary = (.ok (), s₁)) ∧
      s₁.usage.starts = s.usage.starts ∧ s₁.usage.loads = s.usage.loads
  /-- Where the library is not ready and no load is in progress, who asks next starts exactly one
  new load, which is then in progress. -/
  restarts : s.loader.isReady = false → (∀ t, ¬ s.loader.IsRunning t) → ∀ host,
    ∃ s₁, runOn host s requestLibrary = (.ok s.loader.started, s₁) ∧
      s₁.loader.started = s.loader.started + 1 ∧ s₁.loader.IsRunning s.loader.started

theorem sharesLibrary_of_sound (hs : s.loader.Sound) : s.SharesLibrary where
  one_running t u ht hu :=
    Option.some.inj ((hs.shared_of_isRunning ht).symm.trans (hs.shared_of_isRunning hu))
  request_running t host ht := by
    rw [runOn_requestLibrary, Grammar.Loader.request_of_shared (hs.shared_of_isRunning ht)]
  settles t host ht := by
    have hp := hs.inProgress?_eq_some_iff.mpr ht
    obtain ⟨s₁, hrun, hloader, hstarts, hloads, -⟩ := runOn_awaitLibrary_of_inProgress host hp
    have hself : s₁.loader.outcome? t = some (loadResult host s.disk) := by
      rw [hloader, Grammar.Loader.outcome?_settle hp, if_pos rfl]
    refine ⟨s₁, hrun, ?_, ?_, hstarts, hloads, fun s₂ host' hlater => ?_⟩
    · rw [hloader, Grammar.Loader.isReady_settle hp]
    · intro u
      rw [hloader]
      exact hs.not_isRunning_settle hp
    · exact runOn_awaitLibrary_of_outcome host' (hlater.outcome? hself)
  stays_ready hready s₁ hlater := by
    obtain ⟨t, hshared, houtcome⟩ := Grammar.Loader.isReady_iff.mp hready
    have h := hlater.readyWith ⟨hshared, houtcome, rfl, rfl⟩
    exact ⟨h.isReady, h.runOn_ensureLibrary, h.starts, h.loads⟩
  restarts hready hrunning host := by
    have hshared := hs.shared_eq_none hready hrunning
    refine ⟨{ s with loader := s.loader.request.2 }, ?_, ?_, hs.isRunning_request hshared⟩
    · rw [runOn_requestLibrary, Grammar.Loader.request_of_none hshared]
    · rw [Grammar.Loader.request_of_none hshared]

/-- In every state that a session can come to, the library is shared as it should be. -/
theorem library_shared {d : Disk} (h : Later (.fresh d) s) : s.SharesLibrary :=
  sharesLibrary_of_sound (h.sound Grammar.Loader.sound_idle)

/-- A runtime that does not start: the load fails, and the next request starts another one, which
a further request shares. -/
theorem library_shared_retry :
    let host : Host :=
      { place := ⟨"/work", "/home/user"⟩, environment := [], stamp := "", tag := "", colour := false
        packageDir := "/pkg", executable := "/usr/bin/node"
        library := ⟨.error (.text "refused"), fun _ => .ok (), fun _ => .ok none⟩ }
    let s₁ := (runOn host (.fresh (.bare "/work")) requestLibrary).2
    Later (.fresh (.bare "/work")) s₁ ∧ s₁.loader.IsRunning 0 ∧
      ∃ s₂ s₃, runOn host s₁ (awaitLibrary 0) = (loadResult host s₁.disk, s₂) ∧
        s₂.loader.isReady = false ∧
        runOn host s₂ requestLibrary = (.ok s₂.loader.started, s₃) ∧
        runOn host s₃ requestLibrary = (.ok s₂.loader.started, s₃) := by
  intro host s₁
  have hlater₁ : Later (.fresh (.bare "/work")) s₁ := .single (.request host)
  have hrunning : s₁.loader.IsRunning 0 := ⟨Nat.one_pos, rfl⟩
  have hfailed : loadResult host s₁.disk ≠ .ok () := by
    intro hok
    obtain ⟨-, hstart, -⟩ := loadResult_eq_ok_iff.mp hok
    cases hstart
  clear_value s₁
  obtain ⟨s₂, hrun, hready, hnone, -⟩ := (library_shared hlater₁).settles 0 host hrunning
  have hlater₂ := hlater₁.tail (.await host 0)
  rw [hrun] at hlater₂
  have hnot : s₂.loader.isReady = false := by
    rw [← Bool.not_eq_true, hready]
    exact hfailed
  obtain ⟨s₃, hrequest, -, hnew⟩ := (library_shared hlater₂).restarts hnot hnone host
  have hlater₃ := hlater₂.tail (.request host)
  rw [hrequest] at hlater₃
  have hshare := (library_shared hlater₃).request_running _ host hnew
  exact ⟨hlater₁, hrunning, s₂, s₃, hrun, hnot, hrequest, hshare⟩

end Session
end Marginalia
