import ContextFree.Proofs.Attainability

/-!
# The search for a fresh name

Names are looked at one after the other until one is usable. `Namer.Search` is that search without a limit on the
indexes. If the names are distinct from some index on, so many of them as there are symbols can be in use from there,
and the search ends with the next one at the latest; `freshName`, which has a limit of its own, gives what it finds.
-/

namespace ContextFree

namespace Namer

variable {name : Nat → Symbol} {isUsed : Symbol → Bool} {m i j : Nat}

/-- From an index on the names are not empty and no two are the same. -/
structure DistinctFrom (name : Nat → Symbol) (m : Nat) : Prop where
  name_ne : ∀ i, m ≤ i → name i ≠ ""
  name_inj : ∀ i j, m ≤ i → m ≤ j → name i = name j → i = j

lemma DistinctFrom.of_numbered {before after : String}
    (h : ∀ i, m ≤ i → name i = before ++ Nat.repr i ++ after) : DistinctFrom name m where
  name_ne i hi hempty := by
    rw [h i hi] at hempty
    simp [String.append_eq_empty_iff, Nat.repr_ne_empty] at hempty
  name_inj i j hi hj heq := by
    rw [h i hi, h j hj, String.append_left_inj, String.append_right_inj] at heq
    exact Nat.repr_injective heq

lemma distinctFrom_ofPattern (listed : List Symbol) (before after : String) :
    DistinctFrom (ofPattern listed before after).name listed.length :=
  .of_numbered fun _ hi => patternName_of_le hi

lemma DistinctFrom.exists_unused (h : DistinctFrom name m) (used : List Symbol) :
    ∃ i ≤ m + used.length, name i ≠ "" ∧ name i ∉ used := by
  obtain ⟨i, hi, hle, hunused⟩ := exists_not_mem used h.name_inj
  exact ⟨i, hle, h.name_ne i hi, hunused⟩

/-- The name is neither empty nor in use. -/
def Usable (name : Nat → Symbol) (isUsed : Symbol → Bool) (i : Nat) : Prop :=
  name i ≠ "" ∧ isUsed (name i) = false

/-- A search that has begun at the first index and ended at the second, with a usable name. -/
inductive Search (name : Nat → Symbol) (isUsed : Symbol → Bool) : Nat → Nat → Prop where
  | found {i : Nat} (usable : Usable name isUsed i) : Search name isUsed i i
  | next {i j : Nat} (skipped : ¬Usable name isUsed i) (rest : Search name isUsed (i + 1) j) : Search name isUsed i j

lemma Search.spec (h : Search name isUsed i j) :
    i ≤ j ∧ Usable name isUsed j ∧ ∀ k, i ≤ k → k < j → ¬Usable name isUsed k := by
  induction h with
  | found usable => exact ⟨le_rfl, usable, fun k hi hj => absurd hj (by omega)⟩
  | @next i j skipped _ ih =>
    obtain ⟨hle, husable, hskipped⟩ := ih
    refine ⟨by omega, husable, fun k hi hj => ?_⟩
    rcases Nat.eq_or_lt_of_le hi with rfl | hlt
    · exact skipped
    · exact hskipped k hlt hj

lemma exists_search (hj : Usable name isUsed j) (hle : i ≤ j) : ∃ k ≤ j, Search name isUsed i k := by
  induction hle using Nat.decreasingInduction with
  | self => exact ⟨j, le_rfl, .found hj⟩
  | of_succ i _ ih =>
    obtain ⟨k, hk, hsearch⟩ := ih
    by_cases husable : Usable name isUsed i
    · exact ⟨i, by omega, .found husable⟩
    · exact ⟨k, hk, .next husable hsearch⟩

lemma Search.isLeast (h : Search name isUsed 0 i) : IsLeast {i | Usable name isUsed i} i := by
  obtain ⟨-, husable, hskipped⟩ := h.spec
  refine ⟨husable, fun j hj => ?_⟩
  by_contra hlt
  exact hskipped j (Nat.zero_le j) (by omega) hj

lemma Search.firstUnused_eq {namer : Namer} {limit : Nat} (h : Search namer.name isUsed 0 i) (hi : i ≤ limit) :
    namer.firstUnused isUsed limit = namer.name i := by
  obtain ⟨-, ⟨hne, hunused⟩, hskipped⟩ := h.spec
  have hfind : ((List.range (limit + 1)).find? fun i => namer.name i != "" && !isUsed (namer.name i)) = some i := by
    rw [List.find?_range_eq_some]
    refine ⟨by simp [hne, hunused], List.mem_range.mpr (by omega), fun k hk => ?_⟩
    have := hskipped k (Nat.zero_le k) hk
    simpa [Usable, imp_iff_not_or] using this
  rw [firstUnused, hfind]
  rfl

end Namer

namespace Grammar

variable {g : Grammar} {m i : Nat}

lemma Consistent.usable_iff (hg : g.Consistent) (i : Nat) : Namer.Usable g.namer.name g.hasSymbol i ↔
    g.namer.name i ≠ "" ∧ g.namer.name i ∉ g.terminals ∧ g.namer.name i ∉ g.nonterminals := by
  rw [Namer.Usable, ← Bool.not_eq_true, hg.hasSymbol_iff, symbols, List.mem_append, not_or]

lemma Consistent.freshName_eq (hg : g.Consistent) (h : Namer.Search g.namer.name g.hasSymbol 0 i) :
    g.freshName = g.namer.name i := by
  apply h.firstUnused_eq
  obtain ⟨j, hj, hne, hunused⟩ := g.namer.exists_unused g.symbols
  rw [← hg.hasSymbol_iff, Bool.not_eq_true] at hunused
  exact (h.isLeast.2 ⟨hne, hunused⟩).trans hj

lemma Consistent.exists_search (hg : g.Consistent) (h : Namer.DistinctFrom g.namer.name m) :
    ∃ i ≤ m + g.terminals.length + g.nonterminals.length, Namer.Search g.namer.name g.hasSymbol 0 i := by
  obtain ⟨j, hj, hne, hunused⟩ := h.exists_unused g.symbols
  rw [← hg.hasSymbol_iff, Bool.not_eq_true] at hunused
  obtain ⟨i, hi, hsearch⟩ := Namer.exists_search ⟨hne, hunused⟩ (Nat.zero_le j)
  refine ⟨i, ?_, hsearch⟩
  rw [symbols, List.length_append] at hj
  omega

lemma Consistent.insertFresh_eq (hg : g.Consistent) : Grammar.insertFresh g = .ok g.freshName
    { g with
      nonterminals := g.nonterminals ++ [g.freshName]
      nonterminalIndex := g.nonterminalIndex.insert g.freshName } := by
  have hcause : g.newSymbolCause? g.freshName = none := hg.newSymbolCause?_eq_none.mpr (freshName_spec g hg)
  have hinsert : Grammar.insertNonterminal g.freshName g = .ok () _ := guarded_eq_ok (Option.map_eq_none_iff.mpr hcause)
  change (Grammar.insertNonterminal g.freshName >>= fun _ => pure g.freshName) g = _
  rw [bind_of_ok hinsert]
  rfl

/-- If the names are distinct from some index on, as they are for the standard namer and for all that end in numbered
names, the search for an unused name goes beyond that index by no more than the number of symbols. It ends at the least
index with a usable name. The nonterminal that is added has this name, comes after the others, and is all that
changes. -/
theorem fresh_names_are_near :
    Namer.DistinctFrom Namer.standard.name 0 ∧
    (∀ listed before after, Namer.DistinctFrom (Namer.ofPattern listed before after).name listed.length) ∧
    (∀ name m, Namer.DistinctFrom name m → ∃ namer : Namer, namer.name = name) ∧
    ∀ (g : Grammar) (m : Nat), Attainable g → Namer.DistinctFrom g.namer.name m →
      ∃ i ≤ m + g.terminals.length + g.nonterminals.length,
        Namer.Search g.namer.name g.hasSymbol 0 i ∧
        IsLeast {i | g.namer.name i ≠ "" ∧ g.namer.name i ∉ g.terminals ∧ g.namer.name i ∉ g.nonterminals} i ∧
        g.freshName = g.namer.name i ∧
        insertFresh g = .ok g.freshName
          { g with
            nonterminals := g.nonterminals ++ [g.freshName]
            nonterminalIndex := g.nonterminalIndex.insert g.freshName } := by
  refine ⟨Namer.distinctFrom_ofPattern [] _ _, Namer.distinctFrom_ofPattern, ?_, ?_⟩
  · intro name m h
    exact ⟨.ofEventuallyDistinct name m h.name_ne h.name_inj, rfl⟩
  · intro g m hattainable h
    have hg := hattainable.consistent
    obtain ⟨i, hi, hsearch⟩ := hg.exists_search h
    have hleast := hsearch.isLeast
    simp only [hg.usable_iff] at hleast
    exact ⟨i, hi, hsearch, hleast, hg.freshName_eq hsearch, hg.insertFresh_eq⟩

/-- The three names on the list are of no use, and the first numbered one, `N3`, is a terminal. -/
theorem fresh_name_after_three_listed :
    ∃ g g', ofParts "S" ["a", "N3"] ["B"] [] (.ofPattern ["", "S", "S"] "N" "") = .ok g ∧ g.freshName = "N4" ∧
      insertFresh g = .ok "N4" g' ∧ g'.nonterminals = ["S", "B", "N4"] := by
  obtain ⟨g, hg, hcontents⟩ := ofParts_eq_ok "S" ["a", "N3"] ["B"] [] (.ofPattern ["", "S", "S"] "N" "")
    (by decide) (by decide) (by decide) (by decide) (by decide)
  obtain ⟨-, hterminals, hnonterminals, -, hnamer⟩ := Contents.mk.inj hcontents
  obtain ⟨-, hpattern, -, hfresh⟩ := fresh_names_are_near
  obtain ⟨i, -, -, hleast, hname, hinsert⟩ := hfresh g 3 (.ofParts hg) (hnamer ▸ hpattern ["", "S", "S"] "N" "")
  have hfour : IsLeast
      {i | g.namer.name i ≠ "" ∧ g.namer.name i ∉ g.terminals ∧ g.namer.name i ∉ g.nonterminals} 4 := by
    rw [hterminals, hnonterminals, hnamer]
    refine ⟨by decide, fun j hj => ?_⟩
    by_contra hlt
    have hthree : j ∈ [0, 1, 2, 3] := by simp; omega
    revert hj
    fin_cases hthree <;> decide
  rw [hleast.unique hfour, hnamer] at hname
  have hn4 : g.freshName = "N4" := hname
  rw [hn4] at hinsert
  exact ⟨g, _, hg, hn4, hinsert, by rw [hnonterminals]; rfl⟩

end Grammar

end ContextFree
