import Std.Data.String.ToNat
import ContextFree.Rule

/-!
# Names for new nonterminals

A namer lists candidate names. Some may be empty, repeated or in use, but there is always one more that is
usable, and a bound on where to look for it.
-/

namespace ContextFree

/-- A family of candidate names that no finite set of symbols exhausts. -/
structure Namer where
  name : Nat → Symbol
  /-- An index up to which some name is usable, whatever the symbols in use. -/
  bound : List Symbol → Nat
  exists_unused : ∀ used, ∃ i ≤ bound used, name i ≠ "" ∧ name i ∉ used

namespace Namer

/-- The first usable name, that is, neither empty nor in use, up to an index; empty if there is none. -/
def firstUnused (namer : Namer) (isUsed : Symbol → Bool) (limit : Nat) : Symbol :=
  (((List.range (limit + 1)).find? fun i => namer.name i != "" && !isUsed (namer.name i)).map
    namer.name).getD ""

/-- Among one more value than a list has elements, one is not in the list. -/
theorem exists_not_mem {f : Nat → Symbol} {m : Nat} (used : List Symbol)
    (hf : ∀ i j, m ≤ i → m ≤ j → f i = f j → i = j) :
    ∃ i, m ≤ i ∧ i ≤ m + used.length ∧ f i ∉ used := by
  induction used generalizing f with
  | nil => exact ⟨m, by simp⟩
  | cons u rest ih =>
    by_cases hu : ∃ j, m ≤ j ∧ f j = u
    · obtain ⟨j, hj, hju⟩ := hu
      let skip := fun i => if i < j then i else i + 1
      have hskip : ∀ i, i ≤ skip i ∧ skip i ≤ i + 1 ∧ skip i ≠ j := by
        intro i
        simp only [skip]
        split <;> omega
      have hinj : ∀ i k, skip i = skip k → i = k := by
        intro i k h
        simp only [skip] at h
        split at h <;> split at h <;> omega
      obtain ⟨i, hi, hil, hir⟩ := ih (f := fun i => f (skip i)) fun i k hi hk h =>
        hinj i k (hf _ _ (by have := hskip i; omega) (by have := hskip k; omega) h)
      have hi' := hskip i
      have hne : f (skip i) ≠ u := fun h =>
        hi'.2.2 (hf _ _ (by omega) hj (h.trans hju.symm))
      exact ⟨skip i, by omega, by simp only [List.length_cons]; omega, by simp [hne, hir]⟩
    · obtain ⟨i, hi, hil, hir⟩ := ih hf
      have hne : f i ≠ u := fun h => hu ⟨i, hi, h⟩
      exact ⟨i, hi, by simp only [List.length_cons]; omega, by simp [hne, hir]⟩

/-- A namer from names that are distinct and non-empty from an index on. -/
def ofEventuallyDistinct (name : Nat → Symbol) (m : Nat) (name_ne : ∀ i, m ≤ i → name i ≠ "")
    (name_inj : ∀ i j, m ≤ i → m ≤ j → name i = name j → i = j) : Namer where
  name := name
  bound used := m + used.length
  exists_unused used := by
    obtain ⟨i, hi, hil, hiu⟩ := exists_not_mem used name_inj
    exact ⟨i, hil, name_ne i hi, hiu⟩

/-- The names of a list, then numbered names between two fixed texts. -/
def patternName (listed : List Symbol) (before after : String) (i : Nat) : Symbol :=
  listed[i]?.getD (before ++ Nat.repr i ++ after)

theorem patternName_of_le {listed : List Symbol} {before after : String} {i : Nat}
    (hi : listed.length ≤ i) : patternName listed before after i = before ++ Nat.repr i ++ after := by
  simp [patternName, List.getElem?_eq_none hi]

/-- The namer of a list of names followed by numbered ones. -/
def ofPattern (listed : List Symbol) (before after : String) : Namer :=
  ofEventuallyDistinct (patternName listed before after) listed.length
    (fun i hi h => by
      rw [patternName_of_le hi] at h
      simp [String.append_eq_empty_iff, Nat.repr_ne_empty] at h)
    (fun i j hi hj h => by
      rw [patternName_of_le hi, patternName_of_le hj, String.append_left_inj, String.append_right_inj] at h
      exact Nat.repr_injective h)

/-- The name with an index in the standard family. -/
def standardName (i : Int) : Symbol :=
  "<Z" ++ i.repr ++ ">"

/-- The standard names `<Z0>`, `<Z1>` and so on. -/
def standard : Namer :=
  ofPattern [] "<Z" ">"

theorem standard_name (i : Nat) : standard.name i = standardName i :=
  rfl

/-- The namer in force after a list of choices: the last one given, the standard one if none is. -/
def choose (choices : List (Option Namer)) : Namer :=
  choices.foldl (fun namer choice => choice.getD namer) standard

end Namer

end ContextFree
