import Marginalia.Schema.Check
import Mathlib.Tactic

/-!
# Checked reading that succeeds

Parts that are read one after another give a result when each of them does, and
a reader of an array or a member gives one when it does so for the value it
finds there.
-/

namespace Marginalia
namespace Schema

variable {α β : Type}

namespace Checked

@[simp] theorem map_ok (f : α → β) (a : α) : f <$> (.ok a : Checked α) = .ok (f a) := rfl

@[simp] theorem seq_ok (f : α → β) (a : α) : (.ok f : Checked (α → β)) <*> .ok a = .ok (f a) := rfl

@[simp] theorem seqLeft_ok (a : α) (b : β) :
    (.ok a : Checked α) <* (.ok b : Checked β) = .ok a := rfl

@[simp] theorem under_ok (step : Step) (a : α) : (.ok a : Checked α).under step = .ok a := rfl

end Checked

theorem integer_int {least n : Int} (h : least ≤ n) :
    integer least (.num (.int n)) = .ok (.int n) := by
  have hlt : ¬ Number.int n < .int least := by
    rw [Number.int_lt_int]
    omega
  simp [integer, hlt]

theorem choice_of_lookup {choices : List (String × α)} {s : String} {a : α}
    (h : choices.lookup s = some a) : choice choices (.str s) = .ok a := by
  simp [choice, h]

section Members

variable {name : String} {reader : Reader α} {ms : Json.Members} {v : Json} {a : α}

theorem required_of_lookup (h : ms.lookup name = some v) (hv : reader v = .ok a) :
    required name reader ms = .ok a := by
  rw [required, h]
  simp only [hv, Checked.under_ok]

theorem withDefault_of_lookup (h : ms.lookup name = some v) (hv : reader v = .ok a) (value : α) :
    withDefault name reader value ms = .ok a := by
  rw [withDefault, h]
  simp only [hv, Checked.under_ok]

theorem optional_of_lookup {encode : α → Json} {x : Option α}
    (h : ms.lookup name = x.map encode) (hx : ∀ a ∈ x, reader (encode a) = .ok a) :
    optional name reader ms = .ok x := by
  cases x with
  | none => rw [optional, h]; rfl
  | some a =>
    have ha := hx a rfl
    rw [optional, h]
    simp only [Option.map_some, ha, Checked.under_ok, Checked.map_ok]

end Members

theorem elementsFrom_map {encode : α → Json} {reader : Reader β} {result : α → β} {xs : List α}
    (h : ∀ x ∈ xs, reader (encode x) = .ok (result x)) (index : Nat) :
    elementsFrom reader index (xs.map encode) = .ok (xs.map result) := by
  induction xs generalizing index with
  | nil => rfl
  | cons x xs ih =>
    have hx := h x (by simp)
    have hrest := ih (fun y hy => h y (List.mem_cons_of_mem x hy)) (index + 1)
    rw [List.map_cons, elementsFrom, hx, hrest, Checked.under_ok, Checked.map_ok, Checked.seq_ok,
      List.map_cons]

/-- Reading a whole array needs only that its own elements can be read. -/
theorem array_map {encode : α → Json} {reader : Reader β} {result : α → β} {xs : List α}
    (h : ∀ x ∈ xs, reader (encode x) = .ok (result x)) :
    array reader (.arr (xs.map encode)) = .ok (xs.map result) :=
  elementsFrom_map h 0

theorem array_map_self {encode : α → Json} {reader : Reader α} {xs : List α}
    (h : ∀ x ∈ xs, reader (encode x) = .ok x) :
    array reader (.arr (xs.map encode)) = .ok xs := by
  have hmap : array reader (.arr (xs.map encode)) = .ok (xs.map id) := array_map h
  rwa [List.map_id] at hmap

theorem noOthers_of_subset {known : List String} {ms : Json.Members}
    (h : ∀ m ∈ ms, m.1 ∈ known) : noOthers known ms = .ok () := by
  have hnone : (ms.map Prod.fst).filter (fun name => !known.contains name) = [] := by
    simpa [List.filter_eq_nil_iff] using fun m v hm => h (m, v) hm
  rw [noOthers, hnone]

theorem object_obj {known : List String} {read : Json.Members → Checked α} {ms : Json.Members}
    {a : α} (hread : read ms = .ok a) (h : ∀ m ∈ ms, m.1 ∈ known) :
    object known read (.obj ms) = .ok a := by
  rw [object, hread, noOthers_of_subset h, Checked.seqLeft_ok]

namespace Checked

theorem map_eq_ok {f : α → β} {x : Checked α} {b : β} :
    f <$> x = .ok b ↔ ∃ a, x = .ok a ∧ f a = b := by
  change x.map f = .ok b ↔ _
  cases x <;> simp [map]

theorem seq_eq_ok {f : Checked (α → β)} {x : Checked α} {b : β} :
    f <*> x = .ok b ↔ ∃ a, x = .ok a ∧ ∃ g, f = .ok g ∧ g a = b := by
  change f.seq (fun _ => x) = .ok b ↔ _
  cases f <;> cases x <;> simp [seq]

theorem seqLeft_eq_ok {x : Checked α} {y : Checked β} {a : α} :
    x <* y = .ok a ↔ x = .ok a ∧ ∃ b, y = .ok b := by
  change (Function.const β <$> x) <*> y = .ok a ↔ _
  rw [seq_eq_ok]
  cases x <;> cases y <;> simp [map_eq_ok]

@[simp] theorem under_eq_ok {step : Step} {x : Checked α} {a : α} :
    x.under step = .ok a ↔ x = .ok a := by
  cases x <;> simp [under]

@[simp] theorem problem_ne_ok {p : Problem} {a : α} : problem p ≠ .ok a := by
  simp [problem]

end Checked

theorem string_eq_ok {v : Json} {s : String} : string v = .ok s ↔ v = .str s := by
  cases v <;> simp [string]

theorem boolean_eq_ok {v : Json} {b : Bool} : boolean v = .ok b ↔ v = .bool b := by
  cases v <;> simp [boolean]

theorem integer_eq_ok {least : Int} {v : Json} {x : Number} :
    integer least v = .ok x ↔ v = .num x ∧ ∃ n, x = .int n ∧ least ≤ n := by
  constructor
  · intro h
    cases v with
    | num y =>
      cases y with
      | int n =>
        by_cases hn : n < least
        · simp [integer, hn] at h
        · obtain rfl : .int n = x := by simpa [integer, hn] using h
          exact ⟨rfl, n, rfl, Int.not_lt.mp hn⟩
      | fraction | infinite => simp [integer] at h
    | _ => simp [integer] at h
  · rintro ⟨rfl, n, rfl, hn⟩
    exact integer_int hn

theorem choice_eq_ok {choices : List (String × α)} {v : Json} {a : α} :
    choice choices v = .ok a ↔ ∃ s, v = .str s ∧ choices.lookup s = some a := by
  cases v with
  | str s => cases h : choices.lookup s <;> simp [choice, h]
  | _ => simp [choice]

theorem elementsFrom_eq_ok {reader : Reader α} {index : Nat} {vs : List Json} {as : List α} :
    elementsFrom reader index vs = .ok as ↔ List.Forall₂ (fun a v => reader v = .ok a) as vs := by
  induction vs generalizing index as with
  | nil => cases as <;> simp [elementsFrom]
  | cons v vs ih =>
    cases as with
    | nil => simp [elementsFrom, Checked.seq_eq_ok, Checked.map_eq_ok]
    | cons a as => simp [elementsFrom, Checked.seq_eq_ok, Checked.map_eq_ok, ih, and_comm]

theorem array_eq_ok {reader : Reader α} {v : Json} {as : List α} :
    array reader v = .ok as ↔
      ∃ vs, v = .arr vs ∧ List.Forall₂ (fun a v => reader v = .ok a) as vs := by
  cases v <;> simp [array, elementsFrom_eq_ok]

section Members

variable {name : String} {reader : Reader α} {ms : Json.Members}

theorem required_eq_ok {a : α} :
    required name reader ms = .ok a ↔ ∃ v, ms.lookup name = some v ∧ reader v = .ok a := by
  unfold required
  cases ms.lookup name <;> simp

theorem optional_eq_ok {x : Option α} :
    optional name reader ms = .ok x ↔
      Option.Rel (fun a v => reader v = .ok a) x (ms.lookup name) := by
  unfold optional
  cases ms.lookup name with
  | none => cases x <;> simp
  | some v => cases x <;> simp [Checked.map_eq_ok]

theorem withDefault_eq_ok {value a : α} :
    withDefault name reader value ms = .ok a ↔
      (∃ v, ms.lookup name = some v ∧ reader v = .ok a) ∨
        ms.lookup name = none ∧ value = a := by
  unfold withDefault
  cases ms.lookup name <;> simp

end Members

theorem noOthers_eq_ok {known : List String} {ms : Json.Members} {u : Unit} :
    noOthers known ms = .ok u ↔ ∀ m ∈ ms, m.1 ∈ known := by
  constructor
  · intro h m hm
    by_contra hknown
    have hmem : m.1 ∈ (ms.map Prod.fst).filter fun name => !known.contains name := by
      simpa [hknown] using ⟨m.2, hm⟩
    rw [noOthers] at h
    split at h
    · rename_i hnil
      rw [hnil] at hmem
      exact List.not_mem_nil hmem
    · exact Checked.problem_ne_ok h
  · exact noOthers_of_subset

theorem object_eq_ok {known : List String} {read : Json.Members → Checked α} {v : Json} {a : α} :
    object known read v = .ok a ↔
      ∃ ms, v = .obj ms ∧ read ms = .ok a ∧ ∀ m ∈ ms, m.1 ∈ known := by
  cases v <;> simp [object, Checked.seqLeft_eq_ok, noOthers_eq_ok]

end Schema
end Marginalia
