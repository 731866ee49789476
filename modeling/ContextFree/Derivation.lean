import ContextFree.Grammar.Basic

/-!
# Derivations

A rule replaces one occurrence of its left symbol in a sequence of symbols. A grammar generates the sequences
of terminals that such replacements make of its start symbol.
-/

namespace ContextFree

/-- One replacement by a rule. -/
inductive Produces (rules : List Rule) : List Symbol → List Symbol → Prop where
  | step {r : Rule} (mem : r ∈ rules) (before after : List Symbol) :
      Produces rules (before ++ r.left :: after) (before ++ r.right ++ after)

/-- A derivation of so many steps. -/
inductive DerivesIn (rules : List Rule) : Nat → List Symbol → List Symbol → Prop where
  | refl (u : List Symbol) : DerivesIn rules 0 u u
  | head {n : Nat} {u v w : List Symbol} (first : Produces rules u v) (rest : DerivesIn rules n v w) :
      DerivesIn rules (n + 1) u w

/-- A derivation of any length. -/
def Derives (rules : List Rule) (u v : List Symbol) : Prop :=
  ∃ n, DerivesIn rules n u v

namespace Grammar

/-- The sequence consists of terminals and is derived from the symbol. -/
def GeneratesFrom (g : Grammar) (s : Symbol) (w : List Symbol) : Prop :=
  (∀ t ∈ w, t ∈ g.terminals) ∧ Derives g.rules [s] w

/-- The sequence belongs to the language of the grammar. -/
def Generates (g : Grammar) (w : List Symbol) : Prop :=
  g.GeneratesFrom g.start w

end Grammar

variable {rules : List Rule} {u v w x : List Symbol} {m n : Nat}

theorem Produces.append (h : Produces rules u v) (before after : List Symbol) :
    Produces rules (before ++ u ++ after) (before ++ v ++ after) := by
  obtain ⟨mem, b, a⟩ := h
  simpa using Produces.step mem (before ++ b) (a ++ after)

theorem DerivesIn.append (h : DerivesIn rules n u v) (before after : List Symbol) :
    DerivesIn rules n (before ++ u ++ after) (before ++ v ++ after) := by
  induction h with
  | refl => exact .refl _
  | head first _ ih => exact .head (first.append before after) ih

theorem DerivesIn.trans (h : DerivesIn rules m u v) (h' : DerivesIn rules n v w) :
    DerivesIn rules (m + n) u w := by
  induction h with
  | refl => simpa using h'
  | head first _ ih =>
    rw [Nat.add_right_comm]
    exact .head first (ih h')

theorem Derives.refl (rules : List Rule) (u : List Symbol) : Derives rules u u :=
  ⟨0, .refl u⟩

theorem Derives.trans (h : Derives rules u v) (h' : Derives rules v w) : Derives rules u w := by
  obtain ⟨m, hm⟩ := h
  obtain ⟨n, hn⟩ := h'
  exact ⟨m + n, hm.trans hn⟩

theorem Derives.append (h : Derives rules u v) (h' : Derives rules w x) :
    Derives rules (u ++ w) (v ++ x) := by
  obtain ⟨m, hm⟩ := h
  obtain ⟨n, hn⟩ := h'
  have first := hm.append [] w
  have second := hn.append v []
  simp only [List.nil_append, List.append_nil] at first second
  exact ⟨m + n, first.trans second⟩

theorem Derives.of_mem {r : Rule} (mem : r ∈ rules) : Derives rules [r.left] r.right := by
  have step := Produces.step mem [] []
  simp only [List.nil_append, List.append_nil] at step
  exact ⟨1, .head step (.refl _)⟩

end ContextFree
