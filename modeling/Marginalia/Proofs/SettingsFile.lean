import Marginalia.Proofs.Checked
import Marginalia.Proofs.Disk
import Marginalia.Proofs.Stages

/-!
# Settings in a file

A document holds settings if it is an object whose members are notes or known
members with a value of their type; each name stands in it once. Loading from a
path gives the settings that the document there describes. Where there is none,
loading fails if the settings are required, and gives the preferred settings if
they are not. Notes make no difference.
-/

namespace Marginalia

namespace Json

theorem names_insertNew_perm (ms : Members) (name : String) (v : Json) :
    ((Members.insertNew ms name v).map Prod.fst).Perm (name :: ms.map Prod.fst) := by
  have hperm : List.Perm (Members.insertNew ms name v) ((name, v) :: ms) := by
    unfold Members.insertNew
    split
    · exact List.perm_append_singleton _ _
    · exact List.perm_middle.trans (by rw [List.takeWhile_append_dropWhile])
  exact hperm.map Prod.fst

theorem nodup_names_put {ms : Members} (h : (ms.map Prod.fst).Nodup) (name : String) (v : Json) :
    ((Members.put ms name v).map Prod.fst).Nodup := by
  unfold Members.put
  split
  · have hnames : (ms.map fun m => if m.1 == name then (name, v) else m).map Prod.fst =
        ms.map Prod.fst := by
      rw [List.map_map]
      apply List.map_congr_left
      intro m _
      by_cases hm : m.1 = name <;> simp [hm]
    rwa [hnames]
  · rename_i hnew
    rw [(names_insertNew_perm ms name v).nodup_iff, List.nodup_cons]
    refine ⟨fun hmem => hnew ?_, h⟩
    obtain ⟨m, hm, rfl⟩ := List.mem_map.1 hmem
    exact List.any_eq_true.2 ⟨m, hm, beq_self_eq_true _⟩

theorem nodup_names_ofList (pairs : List (String × Json)) :
    ((Members.ofList pairs).map Prod.fst).Nodup := by
  suffices h : ∀ ms : Members, (ms.map Prod.fst).Nodup →
      ((pairs.foldl (fun ms p => Members.put ms p.1 p.2) ms).map Prod.fst).Nodup by
    exact h [] List.nodup_nil
  induction pairs with
  | nil => exact fun _ h => h
  | cons p pairs ih => exact fun ms h => ih _ (nodup_names_put h p.1 p.2)

theorem nodup_names_of_readValue {n : Nat} {ts rest : List Token} {ms : Members}
    (h : readValue n ts = some (.obj ms, rest)) : (ms.map Prod.fst).Nodup := by
  cases n with
  | zero => simp [readValue] at h
  | succ n =>
    unfold readValue at h
    split at h
    case h_7 =>
      cases h
      exact List.nodup_nil
    case h_8 =>
      obtain ⟨⟨pairs, _⟩, -, heq⟩ := Option.map_eq_some_iff.1 h
      cases heq
      exact nodup_names_ofList pairs
    all_goals simp at h

theorem nodup_names_of_read? {text : String} {ms : Members} (h : read? text = some (.obj ms)) :
    (ms.map Prod.fst).Nodup := by
  obtain ⟨ts, -, hts⟩ := Option.bind_eq_some_iff.1 h
  unfold ofTokens? at hts
  split at hts
  · rename_i v hread
    cases hts
    exact nodup_names_of_readValue hread
  · cases hts

theorem lookup_eq_some_iff_mem {ms : Members} (h : (ms.map Prod.fst).Nodup) {name : String}
    {v : Json} : ms.lookup name = some v ↔ (name, v) ∈ ms := by
  induction ms with
  | nil => simp
  | cons m ms ih =>
    obtain ⟨other, w⟩ := m
    rw [List.map_cons, List.nodup_cons] at h
    rw [List.lookup_cons, List.mem_cons]
    by_cases hname : name = other
    · subst hname
      have hnew : (name, v) ∉ ms := fun hmem => h.1 (List.mem_map.2 ⟨_, hmem, rfl⟩)
      simp [hnew, eq_comm]
    · have hbeq : (name == other) = false := by simpa using hname
      simp [hbeq, hname, ih h.2]

theorem lookup_eq_none_iff_notMem {ms : Members} {name : String} :
    ms.lookup name = none ↔ name ∉ ms.map Prod.fst := by
  rw [List.lookup_eq_none_iff, List.mem_map]
  constructor
  · rintro h ⟨m, hm, rfl⟩
    simpa using h m hm
  · intro h m hm
    rw [bne_iff_ne]
    rintro rfl
    exact h ⟨m, hm, rfl⟩

end Json

namespace Settings

open Association (Policy)
open Schema

/-- A known member with a value of its type. -/
inductive IsSetting : String × Json → Prop
  | policy (p : Policy) : IsSetting ("associationPolicy", .str p.name)
  | lineComments (b : Bool) : IsSetting ("includeLineComments", .bool b)
  | blockComments (b : Bool) : IsSetting ("includeBlockComments", .bool b)
  | compact (b : Bool) : IsSetting ("compactJson", .bool b)
  | pretty (b : Bool) : IsSetting ("prettyJson", .bool b)

/-- A document that holds settings: an object of notes and settings. -/
def IsDocument (v : Json) : Prop :=
  ∃ ms, v = .obj ms ∧ ∀ m ∈ ms, isNote m.1 = true ∨ IsSetting m

/-- Settings are described by members: what the members say holds, and what they do not mention is
as preferred. -/
structure DescribedBy (s : Settings) (ms : Json.Members) : Prop where
  given : ∀ m ∈ ms, isNote m.1 = true ∨ m ∈ s.members
  others : ∀ m ∈ s.members, m ∈ ms ∨ m.1 ∉ ms.map Prod.fst ∧ m ∈ preferred.members

theorem isSetting_of_mem_members {s : Settings} {m : String × Json} (h : m ∈ s.members) :
    IsSetting m := by
  simp only [members, List.mem_cons, List.not_mem_nil, or_false] at h
  rcases h with rfl | rfl | rfl | rfl | rfl <;> constructor

theorem DescribedBy.isDocument {s : Settings} {ms : Json.Members} (h : s.DescribedBy ms) :
    IsDocument (.obj ms) :=
  ⟨ms, rfl, fun m hm => (h.given m hm).imp_right isSetting_of_mem_members⟩

def knownNames : List String := preferred.members.map Prod.fst

theorem mem_knownNames {s : Settings} {m : String × Json} (h : m ∈ s.members) :
    m.1 ∈ knownNames := by
  have hnames : s.members.map Prod.fst = knownNames := rfl
  exact hnames ▸ List.mem_map_of_mem h

theorem isNote_of_mem_knownNames : ∀ name ∈ knownNames, isNote name = false := by
  decide

theorem choice_policy_eq_ok (v : Json) (p : Policy) :
    choice (Policy.all.map fun p => (p.name, p)) v = .ok p ↔ v = .str p.name := by
  have hlookup : ∀ s, (Policy.all.map fun p => (p.name, p)).lookup s = some p ↔ s = p.name := by
    intro s
    cases p <;> simp [Policy.all, Policy.name, List.lookup_cons] <;> grind
  simp [choice_eq_ok, hlookup]

theorem withDefault_eq_ok_iff {α : Type} {name : String} {reader : Reader α} {encode : α → Json}
    (hreader : ∀ v a, reader v = .ok a ↔ v = encode a) {value a : α} {ms : Json.Members} :
    withDefault name reader value ms = .ok a ↔
      ms.lookup name = some (encode a) ∨ ms.lookup name = none ∧ a = value := by
  simp only [withDefault_eq_ok, hreader, exists_eq_right, @eq_comm _ value a]

/-- Settings are read exactly from members that have each of them, or leave it out where it is as
preferred. -/
theorem read_eq_ok {ms : Json.Members} {s : Settings} :
    read ms = .ok s ↔ ∀ m ∈ s.members,
      ms.lookup m.1 = some m.2 ∨ ms.lookup m.1 = none ∧ m ∈ preferred.members := by
  obtain ⟨policy, line, block, compact, pretty⟩ := s
  have hname : policy.name = Policy.preferred.name ↔ policy = .preferred := by
    cases policy <;> decide
  simp only [read, Checked.seq_eq_ok, Checked.map_eq_ok, withDefault_eq_ok_iff choice_policy_eq_ok,
    withDefault_eq_ok_iff fun _ _ => boolean_eq_ok, ↓existsAndEq, and_true]
  simp only [preferred, mk.injEq, ↓existsAndEq, true_and, exists_eq_right_right, members,
    List.mem_cons, List.not_mem_nil, or_false, forall_eq_or_imp, Prod.mk.injEq, Json.str.injEq,
    hname, String.reduceEq, reduceCtorEq, and_self, or_self, Json.bool.injEq, false_and, false_or,
    forall_eq]
  constructor
  · rintro ⟨hpretty, hcompact, hblock, hline, hpolicy⟩
    exact ⟨hpolicy, hline, hblock, hcompact, hpretty⟩
  · rintro ⟨hpolicy, hline, hblock, hcompact, hpretty⟩
    exact ⟨hpretty, hcompact, hblock, hline, hpolicy⟩

/-- Where names stand once and are known, it is enough to look at the settings one by one. -/
theorem DescribedBy.of_others {s : Settings} {ms : Json.Members} (hnodup : (ms.map Prod.fst).Nodup)
    (hknown : ∀ m ∈ ms, isNote m.1 = true ∨ m.1 ∈ knownNames)
    (hothers : ∀ m ∈ s.members, m ∈ ms ∨ m.1 ∉ ms.map Prod.fst ∧ m ∈ preferred.members) :
    s.DescribedBy ms := by
  refine ⟨fun m hm => (hknown m hm).imp_right fun hname => ?_, hothers⟩
  obtain ⟨m', hm', heq⟩ : ∃ m' ∈ s.members, m'.1 = m.1 := List.mem_map.1 hname
  rcases hothers m' hm' with hmem | ⟨hnew, -⟩
  · have hvalue : m'.2 = m.2 := by
      have h := (Json.lookup_eq_some_iff_mem hnodup).2 hm
      have h' := (Json.lookup_eq_some_iff_mem hnodup).2 hmem
      rw [heq, h] at h'
      exact (Option.some.inj h').symm
    rwa [← Prod.ext heq hvalue]
  · exact absurd (heq ▸ List.mem_map_of_mem hm) hnew

/-- Reading gives the settings that the members describe. -/
theorem ofJson_obj_eq_ok {ms : Json.Members} (hnodup : (ms.map Prod.fst).Nodup) {s : Settings} :
    ofJson (.obj ms) = .ok s ↔ s.DescribedBy ms := by
  let fs := ms.filter fun m => !isNote m.1
  have hfs : ∀ m, m ∈ fs ↔ m ∈ ms ∧ isNote m.1 = false := by simp [fs]
  have hnodup' : (fs.map Prod.fst).Nodup := (List.filter_sublist.map Prod.fst).nodup hnodup
  have hnames : ∀ name, isNote name = false →
      (name ∈ fs.map Prod.fst ↔ name ∈ ms.map Prod.fst) := by
    intro name hname
    simp only [List.mem_map, hfs]
    constructor
    · rintro ⟨m, ⟨hm, -⟩, rfl⟩
      exact ⟨m, hm, rfl⟩
    · rintro ⟨m, hm, rfl⟩
      exact ⟨m, ⟨hm, hname⟩, rfl⟩
  have hread : ofJson (.obj ms) = .ok s ↔ read fs = .ok s ∧ ∀ m ∈ fs, m.1 ∈ knownNames := by
    change object knownNames read (.obj fs) = .ok s ↔ _
    simp [object_eq_ok]
  have hmember : ∀ m ∈ s.members,
      ((fs.lookup m.1 = some m.2 ∨ fs.lookup m.1 = none ∧ m ∈ preferred.members) ↔
        (m ∈ ms ∨ m.1 ∉ ms.map Prod.fst ∧ m ∈ preferred.members)) := by
    intro m hm
    have hnote := isNote_of_mem_knownNames _ (mem_knownNames hm)
    rw [Json.lookup_eq_some_iff_mem hnodup', Json.lookup_eq_none_iff_notMem, hnames _ hnote, hfs]
    simp [hnote]
  rw [hread, read_eq_ok]
  constructor
  · rintro ⟨hothers, hknown⟩
    refine .of_others hnodup (fun m hm => ?_) fun m hm => (hmember m hm).1 (hothers m hm)
    cases hnote : isNote m.1 with
    | true => exact .inl rfl
    | false => exact .inr (hknown m ((hfs m).2 ⟨hm, hnote⟩))
  · intro h
    refine ⟨fun m hm => (hmember m hm).2 (h.others m hm), fun m hm => ?_⟩
    obtain ⟨hm, hnote⟩ := (hfs m).1 hm
    rcases h.given m hm with hnote' | hmem
    · rw [hnote] at hnote'
      cases hnote'
    · exact mem_knownNames hmem

theorem exists_value {α : Type} {encode : α → Json} {ms : Json.Members} {name : String} (value : α)
    (hvalue : (name, encode value) ∈ preferred.members)
    (h : ∀ v, (name, v) ∈ ms → ∃ a, v = encode a) :
    ∃ a, (name, encode a) ∈ ms ∨
      name ∉ ms.map Prod.fst ∧ (name, encode a) ∈ preferred.members := by
  by_cases hname : name ∈ ms.map Prod.fst
  · obtain ⟨⟨_, v⟩, hm, rfl⟩ := List.mem_map.1 hname
    obtain ⟨a, rfl⟩ := h v hm
    exact ⟨a, .inl hm⟩
  · exact ⟨value, .inr ⟨hname, hvalue⟩⟩

theorem exists_describedBy {ms : Json.Members} (hnodup : (ms.map Prod.fst).Nodup)
    (h : IsDocument (.obj ms)) : ∃ s : Settings, s.DescribedBy ms := by
  obtain ⟨_, heq, hms⟩ := h
  cases heq
  have hsetting : ∀ name v, (name, v) ∈ ms → isNote name = false → IsSetting (name, v) := by
    intro name v hm hnote
    exact (hms _ hm).resolve_left (by simp [hnote])
  have hbool : ∀ name ∈ knownNames, name ≠ "associationPolicy" → ∀ v, (name, v) ∈ ms →
      ∃ b, v = .bool b := by
    intro name hknown hname v hm
    have := hsetting name v hm (isNote_of_mem_knownNames name hknown)
    generalize hmember : (name, v) = m at this
    cases this <;> grind
  have hpolicy : ∀ v, ("associationPolicy", v) ∈ ms → ∃ p : Policy, v = .str p.name := by
    intro v hm
    have := hsetting _ v hm (by decide)
    generalize hmember : ("associationPolicy", v) = m at this
    cases this <;> grind
  obtain ⟨policy, hp⟩ := exists_value preferred.policy (by simp [members]) hpolicy
  obtain ⟨line, hl⟩ := exists_value preferred.lineComments (by simp [members])
    (hbool "includeLineComments" (by decide) (by decide))
  obtain ⟨block, hb⟩ := exists_value preferred.blockComments (by simp [members])
    (hbool "includeBlockComments" (by decide) (by decide))
  obtain ⟨compact, hc⟩ := exists_value preferred.compact (by simp [members])
    (hbool "compactJson" (by decide) (by decide))
  obtain ⟨pretty, hy⟩ := exists_value preferred.pretty (by simp [members])
    (hbool "prettyJson" (by decide) (by decide))
  refine ⟨⟨policy, line, block, compact, pretty⟩, .of_others hnodup (fun m hm => ?_) ?_⟩
  · refine (hms m hm).imp_right fun hsetting => ?_
    cases hsetting <;> simp [knownNames, members]
  · simp only [members, List.forall_mem_cons]
    exact ⟨hp, hl, hb, hc, hy, by simp⟩

theorem parse_eq_ok_iff {text : String} {s : Settings} :
    parse text = .ok s ↔ ∃ ms, Json.read? text = some (.obj ms) ∧ s.DescribedBy ms := by
  unfold parse
  cases hread : Json.read? text with
  | none => simp
  | some v =>
    cases v with
    | obj ms =>
      have hok := ofJson_obj_eq_ok (Json.nodup_names_of_read? hread) (s := s)
      cases hv : ofJson (.obj ms) <;> simp [← hok, hv]
    | _ => simp [ofJson, withoutNotes, object, Checked.problem]

theorem readFile_eq_ok_iff {d : Disk} {path : String} {s : Settings} :
    readFile d path = .ok s ↔
      ∃ text, d.lookAt path = some (.file text) ∧ parse text = .ok s := by
  simp only [← Disk.read_eq_ok_iff]
  unfold readFile
  cases d.read path <;> simp

/-- What is at a path cannot be used: it is a directory, its text is no JSON, or the document is
none that holds settings. -/
inductive IsUnusable (d : Disk) (path : String) : Prop
  | directory (h : d.lookAt path = some .directory)
  | malformed {text : String} (h : d.lookAt path = some (.file text))
      (hread : Json.read? text = none)
  | otherDocument {text : String} {v : Json} (h : d.lookAt path = some (.file text))
      (hread : Json.read? text = some v) (hother : ¬ IsDocument v)

theorem isUnusable_iff {d : Disk} {path : String} :
    IsUnusable d path ↔ d.lookAt path ≠ none ∧ ∀ s, readFile d path ≠ .ok s := by
  simp only [ne_eq, readFile_eq_ok_iff, parse_eq_ok_iff]
  constructor
  · rintro (h | ⟨h, hread⟩ | ⟨h, hread, hother⟩)
    · simp [h]
    · simp [h, hread]
    · refine ⟨by simp [h], ?_⟩
      rintro s ⟨text, htext, ms, hms, hs⟩
      rw [h] at htext
      cases htext
      rw [hread] at hms
      cases hms
      exact hother hs.isDocument
  · rintro ⟨hsome, hnone⟩
    rcases h : d.lookAt path with _ | text | _
    · exact absurd h hsome
    · cases hread : Json.read? text with
      | none => exact .malformed h hread
      | some v =>
        refine .otherDocument h hread fun hv => ?_
        obtain ⟨ms, rfl, -⟩ := id hv
        obtain ⟨s, hs⟩ := exists_describedBy (Json.nodup_names_of_read? hread) hv
        exact hnone s ⟨text, h, ms, hread, hs⟩
    · exact .directory h

def unnoted (ms : Json.Members) : Json.Members := ms.filter fun m => !isNote m.1

theorem parse_congr {text text' : String} {ms ms' : Json.Members}
    (hread : Json.read? text = some (.obj ms)) (hread' : Json.read? text' = some (.obj ms'))
    (hsame : unnoted ms = unnoted ms') : parse text = parse text' := by
  have hnotes : withoutNotes (.obj ms) = withoutNotes (.obj ms') := congrArg Json.obj hsame
  unfold parse ofJson
  rw [hread, hread']
  dsimp only
  rw [hnotes]

end Settings

namespace Session

open Settings (IsUnusable unnoted)

variable {d : Disk} {path : String}

theorem settingsAt_false (d : Disk) (path : String) :
    settingsAt false d path = .ok ((settingsAt true d path).toOption.getD .preferred) := by
  unfold settingsAt
  split
  · rfl
  · cases Settings.readFile d path <;> rfl

theorem settingsAt_of_missing (h : d.lookAt path = none) (isRequired : Bool) :
    settingsAt isRequired d path =
      if isRequired then .error (.failure (.fileNotFound path)) else .ok .preferred := by
  have hpath : d.hasPath path = false := by
    rw [Disk.hasPath_eq, h]
    rfl
  rw [settingsAt, hpath]
  rfl

theorem settingsAt_of_present (h : d.lookAt path ≠ none) (isRequired : Bool) :
    settingsAt isRequired d path =
      match Settings.readFile d path with
      | .ok settings => .ok settings
      | .error reason =>
        if isRequired then .error (.failure (.invalidConfig path reason.message))
        else .ok .preferred := by
  have hpath : d.hasPath path = true := by
    rw [Disk.hasPath_eq]
    exact Option.isSome_iff_ne_none.2 h
  rw [settingsAt, hpath]
  rfl

theorem settingsAt_true_cases (d : Disk) (path : String) :
    (d.lookAt path = none ∧ settingsAt true d path = .error (.failure (.fileNotFound path))) ∨
    (IsUnusable d path ∧ ∃ details,
      settingsAt true d path = .error (.failure (.invalidConfig path details))) ∨
    (d.lookAt path ≠ none ∧ ∃ settings, Settings.readFile d path = .ok settings ∧
      settingsAt true d path = .ok settings) := by
  by_cases h : d.lookAt path = none
  · exact .inl ⟨h, settingsAt_of_missing h true⟩
  · right
    rw [settingsAt_of_present h]
    cases hread : Settings.readFile d path with
    | ok settings => exact .inr ⟨h, settings, rfl, rfl⟩
    | error reason =>
      refine .inl ⟨Settings.isUnusable_iff.2 ⟨h, ?_⟩, reason.message, rfl⟩
      simp [hread]

theorem settingsAt_true_eq_ok_iff {settings : Settings} :
    settingsAt true d path = .ok settings ↔ Settings.readFile d path = .ok settings := by
  rcases settingsAt_true_cases d path with ⟨hnone, h⟩ | ⟨hbad, details, h⟩ | ⟨-, loaded, hread, h⟩
  · simp [h, Settings.readFile_eq_ok_iff, hnone]
  · simp [h, (Settings.isUnusable_iff.1 hbad).2]
  · simp [h, hread]

theorem settingsAt_congr {d' : Disk} {text text' : String} {ms ms' : Json.Members}
    (htext : d.lookAt path = some (.file text)) (htext' : d'.lookAt path = some (.file text'))
    (hread : Json.read? text = some (.obj ms)) (hread' : Json.read? text' = some (.obj ms'))
    (hsame : unnoted ms = unnoted ms') (isRequired : Bool) :
    settingsAt isRequired d path = settingsAt isRequired d' path := by
  have hfile : Settings.readFile d path = Settings.readFile d' path := by
    unfold Settings.readFile
    rw [Disk.read_eq_ok_iff.2 htext, Disk.read_eq_ok_iff.2 htext']
    exact Settings.parse_congr hread hread' hsame
  rw [settingsAt_of_present (by simp [htext]), settingsAt_of_present (by simp [htext']), hfile]

def loadOutcome (host : Host) (s : State) (isRequired : Bool) (path : String) :
    Except Fault Settings :=
  (runOn host s (loadSettings isRequired path)).1

theorem loadOutcome_eq (host : Host) (s : State) (isRequired : Bool) (path : String) :
    loadOutcome host s isRequired path = settingsAt isRequired s.disk path := by
  obtain ⟨s', hrun, -⟩ := ends_loadSettings host s isRequired path
  rw [loadOutcome, hrun]

/-- Loading optional settings falls back on the preferred ones exactly where loading required ones
fails, and what the latter comes to is told by what is at the path, up to notes. -/
structure LoadsByDocument (host : Host) (s : State) (path : String) : Prop where
  optional : ∃ settings, loadOutcome host s false path = .ok settings
  resolved : ∀ settings, loadOutcome host s true path = .ok settings →
    loadOutcome host s false path = .ok settings
  rejected : ∀ e, loadOutcome host s true path = .error e →
    loadOutcome host s false path = .ok .preferred
  missing : (∃ f, loadOutcome host s true path = .error (.failure f) ∧ f.code = .fileNotFound) ↔
    s.disk.lookAt path = none
  unusable : (∃ f, loadOutcome host s true path = .error (.failure f) ∧ f.code = .invalidConfig) ↔
    IsUnusable s.disk path
  loaded : ∀ settings, loadOutcome host s true path = .ok settings ↔
    ∃ text ms, s.disk.lookAt path = some (.file text) ∧ Json.read? text = some (.obj ms) ∧
      settings.DescribedBy ms
  notes : ∀ (s' : State) (text text' : String) (ms ms' : Json.Members) (isRequired : Bool),
    s.disk.lookAt path = some (.file text) → s'.disk.lookAt path = some (.file text') →
    Json.read? text = some (.obj ms) → Json.read? text' = some (.obj ms') →
    unnoted ms = unnoted ms' →
    loadOutcome host s isRequired path = loadOutcome host s' isRequired path

theorem loadSettings_by_document (host : Host) (s : State) (path : String) :
    LoadsByDocument host s path := by
  have hoptional := settingsAt_false s.disk path
  constructor
  all_goals simp only [loadOutcome_eq]
  case optional => exact ⟨_, hoptional⟩
  case resolved =>
    intro settings h
    rw [hoptional, h]
    rfl
  case rejected =>
    intro e h
    rw [hoptional, h]
    rfl
  case missing =>
    rcases settingsAt_true_cases s.disk path with ⟨hnone, h⟩ | ⟨hbad, details, h⟩ | ⟨hsome, _, -, h⟩
    · simp [h, hnone, Failure.code]
    · simp [h, (Settings.isUnusable_iff.1 hbad).1, Failure.code]
    · simp [h, hsome]
  case unusable =>
    rcases settingsAt_true_cases s.disk path with
      ⟨hnone, h⟩ | ⟨hbad, details, h⟩ | ⟨-, loaded, hread, h⟩
    · simp [h, hnone, Settings.isUnusable_iff, Failure.code]
    · simp [h, hbad, Failure.code]
    · simp [h, Settings.isUnusable_iff, hread]
  case loaded =>
    intro settings
    rw [settingsAt_true_eq_ok_iff, Settings.readFile_eq_ok_iff]
    simp only [Settings.parse_eq_ok_iff]
    constructor
    · rintro ⟨text, htext, ms, hread, hms⟩
      exact ⟨text, ms, htext, hread, hms⟩
    · rintro ⟨text, ms, htext, hread, hms⟩
      exact ⟨text, htext, ms, hread, hms⟩
  case notes =>
    intro s' text text' ms ms' isRequired htext htext' hread hread' hsame
    exact settingsAt_congr htext htext' hread hread' hsame isRequired

end Session
end Marginalia
