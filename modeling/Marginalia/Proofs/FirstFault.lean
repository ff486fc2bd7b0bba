import Marginalia.Grammar.Node

/-!
# The first fault of a syntax tree

A tree is read in preorder: a node, then its children one after another, each
with all that is below it. The search for a fault leaves out what is below a node
that is not marked, and takes the position of a marked node in which it finds
nothing. Where every mark is right neither matters: the search comes to the first
fault in preorder, and to nothing only if there is none.
-/

namespace Marginalia
namespace Grammar
namespace Node

variable {n : Node}

mutual

/-- A node and all nodes below it, in preorder. -/
def preorder : Node → List Node
  | mk type text start stop children isNamed field hasError isMissing =>
    mk type text start stop children isNamed field hasError isMissing :: preorderIn children

def preorderIn : List Node → List Node
  | [] => []
  | c :: cs => preorder c ++ preorderIn cs

end

theorem preorder_eq (n : Node) : n.preorder = n :: preorderIn n.children := by
  cases n
  rfl

/-- The mark of a node is right: it is there exactly if the node is a fault or has one below it. -/
def IsMarkedRightly (n : Node) : Prop := n.hasError = true ↔ ∃ m ∈ n.preorder, m.isFault = true

instance (n : Node) : Decidable n.IsMarkedRightly :=
  inferInstanceAs (Decidable (_ ↔ _))

theorem firstFault?_of_isFault (h : n.isFault = true) : n.firstFault? = some n.start.position := by
  cases n
  exact if_pos h

theorem firstFault?_of_unmarked (h : n.isFault = false) (hmark : n.hasError = false) :
    n.firstFault? = none := by
  cases n
  simp only [isFault, hasError, type, isMissing] at h hmark
  simp [firstFault?, h, hmark]

/-- Below a marked node the search goes on, and it falls back on the node itself. -/
theorem firstFault?_of_marked (h : n.isFault = false) (hmark : n.hasError = true) :
    n.firstFault? = some ((firstFaultIn? n.children).getD n.start.position) := by
  cases n
  simp only [isFault, hasError, type, isMissing] at h hmark
  simp [firstFault?, h, hmark, children, start]

def positionIn? (ns : List Node) : Option Position :=
  (ns.find? isFault).map fun n => n.start.position

/-- A node with a right mark is searched like its preorder, if its children are. -/
theorem firstFault?_of_children (hmark : n.IsMarkedRightly)
    (hchildren : firstFaultIn? n.children = positionIn? (preorderIn n.children)) :
    n.firstFault? = positionIn? n.preorder := by
  unfold IsMarkedRightly at hmark
  rw [preorder_eq] at hmark ⊢
  cases hfault : n.isFault with
  | true =>
    rw [firstFault?_of_isFault hfault, positionIn?, List.find?_cons_of_pos hfault]
    rfl
  | false =>
    have hskip : (n :: preorderIn n.children).find? isFault =
        (preorderIn n.children).find? isFault :=
      List.find?_cons_of_neg (by simp [hfault])
    rw [positionIn?, hskip]
    cases hmarked : n.hasError with
    | false =>
      have hnone : (n :: preorderIn n.children).find? isFault = none := by
        rw [List.find?_eq_none]
        intro m hm hfaulty
        have := hmark.2 ⟨m, hm, hfaulty⟩
        rw [hmarked] at this
        cases this
      rw [firstFault?_of_unmarked hfault hmarked, ← hskip, hnone]
      rfl
    | true =>
      -- The mark promises a fault, and it is not the node: the fallback is not needed.
      have hsome : ((n :: preorderIn n.children).find? isFault).isSome := by
        rw [List.find?_isSome]
        exact hmark.1 hmarked
      rw [hskip] at hsome
      obtain ⟨m, hm⟩ := Option.isSome_iff_exists.1 hsome
      rw [firstFault?_of_marked hfault hmarked, hchildren, positionIn?, hm]
      rfl

mutual

/-- Where all marks are right, the search of a node is that of its preorder. -/
theorem firstFault?_eq_positionIn? :
    ∀ n : Node, (∀ m ∈ n.preorder, m.IsMarkedRightly) → n.firstFault? = positionIn? n.preorder
  | mk type text start stop children isNamed field hasError isMissing, h => by
    apply firstFault?_of_children
    · exact h _ List.mem_cons_self
    · apply firstFaultIn?_eq_positionIn?
      intro m hm
      exact h m (List.mem_cons_of_mem _ hm)

theorem firstFaultIn?_eq_positionIn? :
    ∀ cs : List Node, (∀ m ∈ preorderIn cs, m.IsMarkedRightly) →
      firstFaultIn? cs = positionIn? (preorderIn cs)
  | [], _ => rfl
  | c :: cs, h => by
    have hfirst := firstFault?_eq_positionIn? c fun m hm => h m (List.mem_append_left _ hm)
    have hothers := firstFaultIn?_eq_positionIn? cs fun m hm => h m (List.mem_append_right _ hm)
    rw [firstFaultIn?, hfirst, hothers, preorderIn]
    simp only [positionIn?, List.find?_append]
    cases (preorder c).find? isFault <;> rfl

end

/-- The search finds the first fault: if every mark in a tree is right, it finds nothing exactly if
no node of the tree is a fault, and else the start of the first fault in preorder, with lines from
one. -/
theorem firstFault?_first_in_preorder (root : Node)
    (hmarks : ∀ n ∈ root.preorder, n.IsMarkedRightly) :
    (root.firstFault? = none ↔ ∀ n ∈ root.preorder, n.isFault = false) ∧
    ∀ before n after, root.preorder = before ++ n :: after →
      (∀ m ∈ before, m.isFault = false) → n.isFault = true →
        root.firstFault? = some { line := n.start.row.addInt 1, column := n.start.column } := by
  rw [firstFault?_eq_positionIn? root hmarks]
  constructor
  · simp [positionIn?, List.find?_eq_none]
  · intro before n after hsplit hbefore hfault
    have hfind : root.preorder.find? isFault = some n := by
      rw [List.find?_eq_some_iff_append]
      refine ⟨hfault, before, after, hsplit, ?_⟩
      intro m hm
      simp [hbefore m hm]
    rw [positionIn?, hfind]
    rfl

def missingBrace : Node :=
  .mk "\x7d" "" ⟨.int 1, .int 4⟩ ⟨.int 1, .int 4⟩ [] false none true true

def openBrace : Node :=
  .mk "\x7b" "\x7b" ⟨.int 0, .int 7⟩ ⟨.int 0, .int 8⟩ [] false none false false

def unclosedBody : Node :=
  .mk "block" "\x7b" ⟨.int 0, .int 7⟩ ⟨.int 1, .int 4⟩ [openBrace, missingBrace] true (some "body")
    true false

def unreadable : Node :=
  .mk "ERROR" "?" ⟨.int 2, .int 0⟩ ⟨.int 2, .int 1⟩ [] true none true false

/-- A tree with two faults, the first of which is two levels down and not named. -/
def faultyTree : Node :=
  .mk "source_file" "" ⟨.int 0, .int 0⟩ ⟨.int 2, .int 1⟩ [unclosedBody, unreadable] true none
    true false

theorem firstFault?_first_in_preorder_missing :
    (∀ n ∈ faultyTree.preorder, n.IsMarkedRightly) ∧
      faultyTree.firstFault? = some { line := .int 2, column := .int 4 } := by
  have hmarks : ∀ n ∈ faultyTree.preorder, n.IsMarkedRightly := by decide
  exact ⟨hmarks, (firstFault?_first_in_preorder faultyTree hmarks).2
    [faultyTree, unclosedBody, openBrace] missingBrace [unreadable] rfl (by decide) (by decide)⟩

end Node
end Grammar
end Marginalia
