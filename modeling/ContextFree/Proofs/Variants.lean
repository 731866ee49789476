import ContextFree.Proofs.Consistency
import ContextFree.Proofs.LeavingOut

/-!
# Variants by positions

Occurrences of a symbol are positions in a sequence, so a way to leave some of them out is a set of positions.
Several sets may leave the same sequence: `dropVariants` lists the sequences and not the ways, each once, and
only the empty set gives the sequence itself. The ways can be listed from the front of the sequence too, where
each symbol that may be left out doubles the list.
-/

namespace ContextFree

variable {u v : List Symbol} {a s : Symbol} {positions : Finset ℕ}

/-- The ways for a sequence with one symbol more at its end. -/
def extendWays (a : Symbol) (ways : List (List Symbol)) (s : Symbol) : List (List Symbol) :=
  ways.flatMap fun c => if s = a then [c ++ [s], c] else [c ++ [s]]

lemma leaveOut_append (a : Symbol) (u v : List Symbol) :
    leaveOut a (u ++ v) = (leaveOut a u).flatMap fun x => (leaveOut a v).map (x ++ ·) := by
  induction u with
  | nil => simp [leaveOut]
  | cons s u ih =>
    have hkeep : (leaveOut a (u ++ v)).map (s :: ·) =
        ((leaveOut a u).map (s :: ·)).flatMap fun x => (leaveOut a v).map (x ++ ·) := by
      rw [ih, List.map_flatMap, List.flatMap_map]
      simp only [List.map_map, Function.comp_def, List.cons_append]
    rw [List.cons_append, leaveOut, leaveOut, hkeep, List.flatMap_append]
    split_ifs
    · rw [ih]
    · rfl

lemma leaveOut_concat (a s : Symbol) (u : List Symbol) :
    leaveOut a (u ++ [s]) = extendWays a (leaveOut a u) s := by
  rw [leaveOut_append, extendWays]
  congr 1
  funext c
  by_cases hs : s = a
  · simp [leaveOut, hs]
  · simp [leaveOut, hs]

lemma leaveOut_eq_foldl (a : Symbol) (u : List Symbol) : leaveOut a u = u.foldl (extendWays a) [[]] := by
  induction u using List.reverseRecOn with
  | nil => rfl
  | append_singleton u s ih => rw [leaveOut_concat, ih, List.foldl_concat]

/-- The variants of a sequence, by doubling the ways at each occurrence and comparing what they leave. -/
theorem dropVariants_eq (a : Symbol) (u : List Symbol) :
    dropVariants a u = (u.foldl (extendWays a) [[]]).tail.eraseDups := by
  rw [dropVariants, distinctSequences_eq, leaveOut_eq_foldl]
  simp

/-! ### Positions -/

/-- The positions at which a symbol stands in a sequence. -/
def occurrences (a : Symbol) (u : List Symbol) : Finset ℕ :=
  {i ∈ Finset.range u.length | u[i]? = some a}

/-- A sequence without the symbols at some positions. -/
def without (positions : Finset ℕ) (u : List Symbol) : List Symbol :=
  (u.zipIdx.filter fun p => p.2 ∉ positions).map (·.1)

/-- The positions behind the first, counted from the second. -/
def behind (positions : Finset ℕ) : Finset ℕ :=
  (positions.erase 0).image (· - 1)

lemma mem_occurrences {i : ℕ} : i ∈ occurrences a u ↔ u[i]? = some a := by
  rw [occurrences, Finset.mem_filter, Finset.mem_range, and_iff_right_iff_imp]
  exact fun h => (List.getElem?_eq_some_iff.mp h).1

lemma mem_behind {i : ℕ} : i ∈ behind positions ↔ i + 1 ∈ positions := by
  simp only [behind, Finset.mem_image, Finset.mem_erase]
  constructor
  · rintro ⟨j, ⟨hj, hmem⟩, rfl⟩
    rwa [Nat.sub_add_cancel (Nat.pos_of_ne_zero hj)]
  · exact fun h => ⟨i + 1, ⟨i.succ_ne_zero, h⟩, rfl⟩

lemma behind_subset (h : positions ⊆ occurrences a (s :: u)) : behind positions ⊆ occurrences a u := by
  intro i hi
  rw [mem_occurrences, ← List.getElem?_cons_succ, ← mem_occurrences]
  exact h (mem_behind.mp hi)

lemma behind_insert_zero (positions : Finset ℕ) : behind (insert 0 positions) = behind positions := by
  ext i
  simp [mem_behind]

lemma behind_image_succ (positions : Finset ℕ) : behind (positions.image (· + 1)) = positions := by
  ext i
  simp [mem_behind]

lemma image_succ_subset (s : Symbol) (h : positions ⊆ occurrences a u) :
    positions.image (· + 1) ⊆ occurrences a (s :: u) := by
  intro i hi
  obtain ⟨j, hj, rfl⟩ := Finset.mem_image.mp hi
  rw [mem_occurrences, List.getElem?_cons_succ, ← mem_occurrences]
  exact h hj

lemma without_cons (positions : Finset ℕ) (s : Symbol) (u : List Symbol) :
    without positions (s :: u) =
      if 0 ∈ positions then without (behind positions) u else s :: without (behind positions) u := by
  have hrest : ((u.zipIdx 1).filter fun p => p.2 ∉ positions).map (·.1) = without (behind positions) u := by
    rw [List.zipIdx_succ, List.filter_map, List.map_map, without]
    simp only [Function.comp_def, mem_behind]
  rw [← hrest, without, List.zipIdx_cons, List.filter_cons]
  by_cases hzero : 0 ∈ positions
  · rw [if_neg (by simpa using hzero), if_pos hzero]
  · rw [if_pos (by simpa using hzero), if_neg hzero, List.map_cons]

lemma drops_without (h : positions ⊆ occurrences a u) : Drops (· = a) u (without positions u) := by
  induction u generalizing positions with
  | nil => exact .nil
  | cons s u ih =>
    have hrest := ih (behind_subset h)
    rw [without_cons]
    split_ifs with hzero
    · exact .drop (by simpa [mem_occurrences] using h hzero) hrest
    · exact .keep s hrest

lemma exists_without (h : Drops (· = a) u v) :
    ∃ positions, positions ⊆ occurrences a u ∧ v = without positions u := by
  induction h with
  | nil => exact ⟨∅, Finset.empty_subset _, rfl⟩
  | keep s _ ih =>
    obtain ⟨positions, hsub, rfl⟩ := ih
    refine ⟨positions.image (· + 1), ?_, ?_⟩
    · exact image_succ_subset s hsub
    · simp [without_cons, behind_image_succ]
  | @drop s _ _ hs _ ih =>
    obtain ⟨positions, hsub, rfl⟩ := ih
    refine ⟨insert 0 (positions.image (· + 1)), ?_, ?_⟩
    · exact Finset.insert_subset (mem_occurrences.mpr (by simp [hs])) (image_succ_subset s hsub)
    · simp [without_cons, behind_insert_zero, behind_image_succ]

lemma without_eq_self_iff (h : positions ⊆ occurrences a u) : without positions u = u ↔ positions = ∅ := by
  constructor
  · intro hself
    have hlength : (u.zipIdx.filter fun p => p.2 ∉ positions).length = u.zipIdx.length := by
      simpa [without] using congrArg List.length hself
    have hkept := List.length_filter_eq_length_iff.mp hlength
    apply Finset.eq_empty_of_forall_notMem
    intro i hi
    have hmem : (a, i) ∈ u.zipIdx := List.mk_mem_zipIdx_iff_getElem?.mpr (mem_occurrences.mp (h hi))
    simpa [hi] using hkept _ hmem
  · rintro rfl
    simp [without]

lemma mem_dropVariants_iff_without :
    v ∈ dropVariants a u ↔ ∃ positions ⊆ occurrences a u, positions.Nonempty ∧ v = without positions u := by
  rw [mem_dropVariants]
  constructor
  · rintro ⟨hdrops, hne⟩
    obtain ⟨positions, hsub, rfl⟩ := exists_without hdrops
    refine ⟨positions, hsub, ?_, rfl⟩
    rw [Finset.nonempty_iff_ne_empty]
    exact fun hempty => hne ((without_eq_self_iff hsub).mpr hempty)
  · rintro ⟨positions, hsub, hsome, rfl⟩
    refine ⟨drops_without hsub, ?_⟩
    exact fun hself => hsome.ne_empty ((without_eq_self_iff hsub).mp hself)

lemma occurrences_eq_empty_iff : occurrences a u = ∅ ↔ a ∉ u := by
  rw [List.mem_iff_getElem?, Finset.eq_empty_iff_forall_notMem]
  simp only [mem_occurrences, not_exists]

lemma dropVariants_eq_nil_iff : dropVariants a u = [] ↔ a ∉ u := by
  rw [List.eq_nil_iff_forall_not_mem, ← occurrences_eq_empty_iff]
  constructor
  · intro hnone
    by_contra hsome
    apply hnone (without (occurrences a u) u)
    rw [mem_dropVariants_iff_without]
    exact ⟨occurrences a u, subset_rfl, Finset.nonempty_iff_ne_empty.mpr hsome, rfl⟩
  · intro hempty v hv
    obtain ⟨positions, hsub, hsome, -⟩ := mem_dropVariants_iff_without.mp hv
    exact (hsome.mono hsub).ne_empty hempty

/-- The variants of a sequence are pairwise different, and they are what is left when some of the occurrences of
the symbol, at least one, are taken away and all else stays in its order. So the sequence is not one of its own
variants, and it has none exactly if the symbol does not occur in it. -/
theorem variants_take_away_some_occurrences (a : Symbol) (u : List Symbol) :
    (dropVariants a u).Nodup ∧
    (∀ v, v ∈ dropVariants a u ↔
      ∃ positions ⊆ occurrences a u, positions.Nonempty ∧ v = without positions u) ∧
    u ∉ dropVariants a u ∧
    (dropVariants a u = [] ↔ a ∉ u) := by
  refine ⟨?_, fun v => mem_dropVariants_iff_without, ?_, dropVariants_eq_nil_iff⟩
  · rw [dropVariants_eq]
    exact nodup_eraseDups _
  · rw [mem_dropVariants]
    exact fun h => h.2 rfl

example : dropVariants "A" ["A", "A"] = [["A"], []] := by decide +kernel

example : dropVariants "A" ["A", "b", "A"] = [["A", "b"], ["b", "A"], ["b"]] := by decide +kernel

end ContextFree
