import Marginalia.Proofs.Stages

/-!
# Calls for outlines

The outlines of sources are asked for one after another, each time in other
surroundings and on another disk; what the calls share is the library. A call
ends with the first of its stages that fails, and whether the library is ready
for it depends on the calls before. A tree that a call got is given back by that
call, so after any number of calls every tree has been given back once.
-/

namespace Marginalia
namespace Session

/-- A call for the outline of a source, or for the annotated one if there are options for that.
A call has its own surroundings, and it finds a disk of its own. -/
structure Call where
  host : Host
  disk : Disk
  source : String
  path : String
  options? : Option Annotation.Options

inductive Answer where
  | outline (f : Outline)
  | annotated (f : Outline) (stats : Annotation.Stats)
deriving DecidableEq, Repr

namespace Call

variable (c : Call)

def answer (f : Outline) : Answer :=
  match c.options? with
  | none => .outline f
  | some options =>
    let (annotated, stats) := Annotation.annotate options f c.source
    .annotated annotated stats

/-- What a call does in a session. -/
def step : Session Answer :=
  match c.options? with
  | none => do
    let f ← outlineOf c.source c.path
    pure (.outline f)
  | some options => do
    let (annotated, stats) ← annotateSource options c.source c.path
    pure (.annotated annotated stats)

def run (s : State) : Except Fault Answer × State := runOn c.host { s with disk := c.disk } c.step

/-- How the library is loaded for a call: well if an earlier load succeeded, and else as a load for
this call does. -/
def loaded (s : State) : Except Fault Unit :=
  if s.loader.isReady then .ok () else loadResult c.host c.disk

def parses (s : State) : Bool := Grammar.supports c.path && (c.loaded s).isOk

def obtainsTree (s : State) : Bool := c.parses s && (treeOf? c.host c.source).isSome

variable {c} {s s' : State}

/-- What is different after a call. -/
structure Leaves (c : Call) (s s' : State) : Prop where
  sound : s'.loader.Sound
  isReady : s'.loader.isReady = true ↔
    s.loader.isReady = true ∨ Grammar.supports c.path = true ∧ loadResult c.host c.disk = .ok ()
  /-- For a source that the grammar does not read, nothing is loaded. -/
  unsupported : Grammar.supports c.path = false → s'.loader = s.loader ∧ s'.usage = s.usage
  parses : s'.usage.parses = s.usage.parses + (c.parses s).toNat
  released : s'.usage.released = s.usage.released + (c.obtainsTree s).toNat

theorem Leaves.of_unlogged {s₁ s₂ : State} (h : Leaves c s s₁) (hsame : s₂.unlogged = s₁.unlogged) :
    Leaves c s s₂ := by
  have hloader := State.loader_eq_of_unlogged hsame
  have husage := State.usage_eq_of_unlogged hsame
  exact ⟨hloader ▸ h.sound, hloader ▸ h.isReady, hloader ▸ husage ▸ h.unsupported,
    husage ▸ h.parses, husage ▸ h.released⟩

theorem loaded_eq_ok_iff :
    c.loaded s = .ok () ↔ s.loader.isReady = true ∨ loadResult c.host c.disk = .ok () := by
  unfold loaded
  split_ifs with h <;> simp [h]

theorem obtainsTree_of_parse {root : Grammar.Node} (hpath : Grammar.supports c.path = true)
    (hload : c.loaded s = .ok ()) (hparse : c.host.library.parse c.source = .ok (some root)) :
    c.obtainsTree s = true := by
  rw [obtainsTree, Call.parses, hpath, hload, treeOf?_eq_some_iff.2 hparse]
  rfl

theorem runOn_outlineOf (hs : s.loader.Sound) :
    ∃ s', runOn c.host { s with disk := c.disk } (outlineOf c.source c.path) =
        (outlineWith c.host (c.loaded s) c.source c.path, s') ∧ Leaves c s s' := by
  cases hpath : Grammar.supports c.path with
  | false =>
    obtain ⟨s', hrun, hsame⟩ := ends_outlineOf_of_not_supports c.host { s with disk := c.disk }
      (c.loaded s) hpath c.source
    have hstays : Leaves c s { s with disk := c.disk } :=
      ⟨hs, by simp [hpath], fun _ => ⟨rfl, rfl⟩, by simp [Call.parses, hpath],
        by simp [obtainsTree, Call.parses, hpath]⟩
    exact ⟨s', hrun, hstays.of_unlogged hsame⟩
  | true =>
    obtain ⟨s₁, h₁, s', hrun, hsame⟩ :=
      endsLike_outlineOf c.host (s := { s with disk := c.disk }) hs hpath c.source
    have hresult : State.libraryResult c.host { s with disk := c.disk } = c.loaded s := rfl
    have hready := h₁.isReady
    rw [hresult] at hrun hsame hready
    refine ⟨s', hrun, Leaves.of_unlogged ?_ hsame⟩
    have hparses : (c.loaded s).isOk = c.parses s := by simp [Call.parses, hpath]
    have hobtains : (c.parses s && (treeOf? c.host c.source).isSome) = c.obtainsTree s := rfl
    rw [hparses, hobtains]
    constructor
    · rw [State.loader_counting]
      exact h₁.sound
    · rw [State.loader_counting, hready, loaded_eq_ok_iff]
      simp [hpath]
    · simp [hpath]
    · rw [State.parses_counting, h₁.parses]
    · rw [State.released_counting, h₁.released]

/-- A call gives what it makes of the outline, or the fault of the first stage that fails. -/
theorem run_eq (hs : s.loader.Sound) :
    ∃ s', c.run s = ((outlineWith c.host (c.loaded s) c.source c.path).map c.answer, s') ∧
      Leaves c s s' := by
  obtain ⟨s₁, hrun, h₁⟩ := runOn_outlineOf (c := c) hs
  unfold run step answer
  cases c.options? with
  | none =>
    refine ⟨s₁, ?_, h₁⟩
    dsimp only
    rw [runOn_bind, hrun]
    cases outlineWith c.host (c.loaded s) c.source c.path <;> rfl
  | some options =>
    dsimp only
    rw [annotateSource, bind_assoc, runOn_bind, hrun]
    cases outlineWith c.host (c.loaded s) c.source c.path with
    | error e => exact ⟨s₁, rfl, h₁⟩
    | ok f =>
      obtain ⟨s₂, hannotate, hsame⟩ := gives_annotate c.host s₁ options f c.source
      refine ⟨s₂, ?_, h₁.of_unlogged hsame⟩
      dsimp only
      rw [runOn_bind_ok hannotate]
      rfl

/-- How a call ends, stage by stage. -/
structure EndsByStages (c : Call) (s : State) : Prop where
  /-- A call is answered exactly if the grammar reads its source, the library is loaded, the source
  has a tree, and the tree has no error. -/
  answered : ∀ a, (c.run s).1 = .ok a ↔
    Grammar.supports c.path = true ∧ c.loaded s = .ok () ∧
      ∃ root, c.host.library.parse c.source = .ok (some root) ∧ root.firstFault? = none ∧
        c.answer (Outline.build root c.source) = a
  /-- A source that the grammar does not read is refused, and nothing is loaded for it. -/
  unsupported : Grammar.supports c.path = false →
    (c.run s).1 = .error (.failure (.unsupportedLanguage c.path)) ∧
      (c.run s).2.loader = s.loader ∧ (c.run s).2.usage = s.usage
  unloaded : ∀ e, Grammar.supports c.path = true → c.loaded s = .error e →
    (c.run s).1 = .error (.failure (.parserUnavailable (e.message c.host.place)
      (some (.ofMessage (e.message c.host.place)))))
  /-- The library gives no tree, or it ends in an error of any kind. -/
  treeless : Grammar.supports c.path = true → c.loaded s = .ok () →
    (∀ root, c.host.library.parse c.source ≠ .ok (some root)) →
      (c.run s).1 =
        .error (.failure (.parserUnavailable ("no syntax tree produced for " ++ c.path) none))
  faulty : ∀ root position, Grammar.supports c.path = true → c.loaded s = .ok () →
    c.host.library.parse c.source = .ok (some root) → root.firstFault? = some position →
      (c.run s).1 = .error (.failure (.parseFailedAt c.path position))
  /-- The library parses once, if the call gets so far. -/
  parses : (c.run s).2.usage.parses = s.usage.parses + (c.parses s).toNat
  /-- A tree is given back by the call that got it, whatever comes of it. -/
  released : (c.run s).2.usage.released = s.usage.released + (c.obtainsTree s).toNat

theorem map_eq_ok_iff {ε α β : Type} {x : Except ε α} {f : α → β} {b : β} :
    x.map f = .ok b ↔ ∃ a, x = .ok a ∧ f a = b := by
  cases x <;> simp [Except.map]

theorem endsByStages (hs : s.loader.Sound) : c.EndsByStages s := by
  obtain ⟨s', hrun, hleaves⟩ := run_eq (c := c) hs
  have hresult := congrArg Prod.fst hrun
  refine ⟨fun a => ?_, fun hpath => ?_, fun e hpath hload => ?_, fun hpath hload hnone => ?_,
    fun root position hpath hload hparse hfault => ?_, ?_, ?_⟩
  · rw [hresult, map_eq_ok_iff]
    simp only [outlineWith_eq_ok_iff]
    constructor
    · rintro ⟨f, ⟨hpath, hload, root, hparse, hfault, rfl⟩, ha⟩
      exact ⟨hpath, hload, root, hparse, hfault, ha⟩
    · rintro ⟨hpath, hload, root, hparse, hfault, ha⟩
      exact ⟨_, ⟨hpath, hload, root, hparse, hfault, rfl⟩, ha⟩
  · constructor
    · simp [hresult, outlineWith, hpath, Except.map]
    · rw [hrun]
      exact hleaves.unsupported hpath
  · simp [hresult, outlineWith, hpath, hload, Except.map]
  · have htree : treeOf? c.host c.source = none := by
      rw [Option.eq_none_iff_forall_ne_some]
      intro root hroot
      exact hnone root (treeOf?_eq_some_iff.1 hroot)
    simp [hresult, outlineWith, hpath, hload, htree, Except.map]
  · have htree := treeOf?_eq_some_iff.2 hparse
    simp [hresult, outlineWith, hpath, hload, htree, outlineOfTree, hfault, Except.map]
  · rw [hrun]
    exact hleaves.parses
  · rw [hrun]
    exact hleaves.released

end Call

def after (s : State) : List Call → State
  | [] => s
  | c :: rest => after (c.run s).2 rest

def treesObtained (s : State) : List Call → Nat
  | [] => 0
  | c :: rest => (c.obtainsTree s).toNat + treesObtained (c.run s).2 rest

variable {s : State}

theorem sound_run (hs : s.loader.Sound) (c : Call) : (c.run s).2.loader.Sound := by
  obtain ⟨s', hrun, hleaves⟩ := Call.run_eq (c := c) hs
  rw [hrun]
  exact hleaves.sound

theorem sound_after (hs : s.loader.Sound) (calls : List Call) : (after s calls).loader.Sound := by
  induction calls generalizing s with
  | nil => exact hs
  | cons c rest ih => exact ih (sound_run hs c)

/-- The library is ready after some calls if it was before, or if it could be loaded for one of them
that asked for it. -/
theorem isReady_after (hs : s.loader.Sound) (calls : List Call) :
    (after s calls).loader.isReady = true ↔ s.loader.isReady = true ∨
      ∃ c ∈ calls, Grammar.supports c.path = true ∧ loadResult c.host c.disk = .ok () := by
  induction calls generalizing s with
  | nil => simp [after]
  | cons c rest ih =>
    obtain ⟨s', hrun, hleaves⟩ := Call.run_eq (c := c) hs
    rw [after, hrun, ih hleaves.sound, hleaves.isReady, List.exists_mem_cons_iff, or_assoc]

theorem released_after (hs : s.loader.Sound) (calls : List Call) :
    (after s calls).usage.released = s.usage.released + treesObtained s calls := by
  induction calls generalizing s with
  | nil => rfl
  | cons c rest ih =>
    have hstep := (Call.endsByStages (c := c) hs).released
    rw [after, ih (sound_run hs c), hstep, treesObtained, Nat.add_assoc]

/-- Of any calls one after another, each ends with the first of its stages that fails, and is
answered if none does; a load that succeeded serves all calls after it; and as many trees are given
back as the calls got. -/
theorem calls_release_trees {d : Disk} (h : Later (.fresh d) s) (calls : List Call) :
    (∀ front c back, calls = front ++ c :: back → c.EndsByStages (after s front)) ∧
      (∀ front, front <+: calls → ((after s front).loader.isReady = true ↔
        s.loader.isReady = true ∨
          ∃ c ∈ front, Grammar.supports c.path = true ∧ loadResult c.host c.disk = .ok ())) ∧
      (after s calls).usage.released = s.usage.released + treesObtained s calls := by
  have hs : s.loader.Sound := h.sound Grammar.Loader.sound_idle
  refine ⟨fun front c back _ => ?_, fun front _ => isReady_after hs front, released_after hs calls⟩
  exact Call.endsByStages (sound_after hs front)

/-- A source with an error, and then a good one in surroundings where the runtime does not start:
the library has been loaded for the first call, and both trees are given back. -/
theorem calls_release_trees_shared :
    let root (source : String) : Grammar.Node :=
      .mk "source_file" source ⟨.int 0, .int 0⟩ ⟨.int 0, .int 0⟩ [] true none (source == "?") false
    let host (start : Except Grammar.Upset Unit) : Host :=
      { place := ⟨"/", "/"⟩, environment := [], stamp := "", tag := "", colour := false
        packageDir := "/", executable := "/node"
        library := ⟨start, fun _ => .ok (), fun source => .ok (some (root source))⟩ }
    let disk := ((Disk.bare "/").add "/node_modules/web-tree-sitter/tree-sitter.wasm" "").add
      "/node_modules/tree-sitter-wasms/out/tree-sitter-rust.wasm" ""
    let s := State.fresh disk
    let faulty : Call := ⟨host (.ok ()), disk, "?", "a.rs", none⟩
    let good : Call := ⟨host (.error (.text "refused")), disk, "", "b.rs", none⟩
    Later (.fresh disk) s ∧
      (faulty.run s).1 = .error (.failure (.parseFailedAt "a.rs" (.ofNat 1 0))) ∧
      loadResult good.host good.disk ≠ .ok () ∧
      (good.run (after s [faulty])).1 = .ok (.outline .empty) ∧
      (after s [faulty, good]).usage.released = 2 := by
  intro root host disk s faulty good
  have hlater : Later (.fresh disk) s := .refl
  have hload : loadResult (host (.ok ())) disk = .ok () := by decide +kernel
  have hrefused : loadResult good.host good.disk ≠ .ok () := by
    intro hok
    obtain ⟨-, hstart, -⟩ := loadResult_eq_ok_iff.mp hok
    cases hstart
  obtain ⟨hends, hready, hreleased⟩ := calls_release_trees hlater [faulty, good]
  have hfaulty := hends [] faulty [good] rfl
  have hgood := hends [faulty] good [] rfl
  have hpath : Grammar.supports faulty.path = true := by decide +kernel
  have hpath' : Grammar.supports good.path = true := by decide +kernel
  have hloaded : faulty.loaded s = .ok () := Call.loaded_eq_ok_iff.2 (.inr hload)
  have hloaded' : good.loaded (after s [faulty]) = .ok () := by
    refine Call.loaded_eq_ok_iff.2 (.inl ((hready [faulty] ⟨[good], rfl⟩).2 (.inr ?_)))
    exact ⟨faulty, List.mem_singleton_self _, hpath, hload⟩
  have hobtains : faulty.obtainsTree s = true := Call.obtainsTree_of_parse hpath hloaded rfl
  have hobtains' : good.obtainsTree (faulty.run s).2 = true :=
    Call.obtainsTree_of_parse hpath' hloaded' rfl
  refine ⟨hlater, ?_, hrefused, ?_, ?_⟩
  · exact hfaulty.faulty (root "?") _ hpath hloaded rfl rfl
  · exact (hgood.answered _).2 ⟨hpath', hloaded', root "", rfl, rfl, rfl⟩
  · rw [hreleased, treesObtained, treesObtained, hobtains, hobtains']
    rfl

end Session
end Marginalia
